/-
  The readers of the stack map format (`rt.stackmap/stackmap.cj`), and the decoder of slot roots.

  A stack map is a string of bits.  A slot row is a base, in `slotBaseBits`, and a bitmap, in
  `slotBitmapBits`; the bitmap is plain in the pure format, and otherwise a sequence of groups: a
  one and 31 literal bits, or a zero, the bit to repeat, and how many times 31.  The embedding:

    * the data is a function from offsets to bytes, with its size next to it, and a byte behind the
      size is not there: a read of it is a fault (`readByte`), which no caller survives;
    * `UInt64` and `UInt32` values are natural numbers and wrap (`Words`), an `Int64` is a bit
      vector;
    * the event buffer is null or a function from indices to events, and is returned with each
      result, also with an error;
    * a bit loop runs on its number of bits, and the loops over a row on the bits that remain.
-/
import CangjieRuntime.Lib.BitField
import CangjieRuntime.Lib.Words

set_option linter.unusedVariables false

namespace CangjieRuntime.Stackmap

abbrev STACKMAP_OK : Nat := 0
abbrev STACKMAP_INVALID_ARGUMENT : Nat := 1
abbrev STACKMAP_TRUNCATED : Nat := 2
abbrev STACKMAP_MALFORMED : Nat := 3
abbrev STACKMAP_NO_SPACE : Nat := 4

abbrev PURE_COMPRESSED_STACKMAP : Nat := 0

/-- What a read outside of the data gives: no code of the source, whose codes have 32 bits. -/
abbrev FAULT : Nat := 2 ^ 32

/-- The largest size whose number of bits fits a word. -/
abbrev MAX_SIZE : Nat := 0x1fffffffffffffff

/-- What a read returns: a code, the number, and the cursor behind it. -/
structure WordResult where
  code : Nat
  value : Nat
  nextBit : Nat
  deriving DecidableEq, Repr

/-- What a decoder of roots returns: a code, the number of events so far, and of roots. -/
structure RootResult where
  code : Nat
  nextEvent : Nat
  baseRoots : Nat
  deriving DecidableEq, Repr

/-! ## Bits -/

/-- The access to one byte of the data. -/
def readByte (data : Nat → UInt8) (size offset : Nat) : Option UInt8 :=
  if offset < size then some (data offset) else none

/-- The loop of `readBits`; the first argument is `bitLen - i`. -/
def readBitsLoop (data : Nat → UInt8) (size bit : Nat) : Nat → Nat → Nat → Option Nat
  | 0, _, value => some value
  | remaining + 1, i, value => do
    let absolute := Words.add 64 bit i
    let byteValue ← readByte data size (absolute >>> 3)
    let oneBit := (byteValue.toNat >>> (absolute &&& 7)) &&& 1
    readBitsLoop data size bit remaining (i + 1) (value ||| Words.shl 32 oneBit i)

/-- `readBits`; it is the only function that reads the data itself. -/
def readBits (data : Nat → UInt8) (size bit bitLen : Nat) : WordResult :=
  if bitLen > 32 ∨ size > MAX_SIZE then ⟨STACKMAP_MALFORMED, 0, bit⟩
  else
    let totalBits := Words.mul 64 size 8
    if bit > totalBits ∨ bitLen > Words.sub 64 totalBits bit then ⟨STACKMAP_TRUNCATED, 0, bit⟩
    else
      match readBitsLoop data size bit bitLen 0 0 with
      | some value => ⟨STACKMAP_OK, value, Words.add 64 bit bitLen⟩
      | none => ⟨FAULT, 0, bit⟩

/-- The number of payload bits of a tag over 11. -/
def payloadBits (tag : Nat) : Nat :=
  if tag = 12 then 8 else if tag = 13 then 16 else if tag = 14 then 24 else 32

/-- A number of variable length: a tag of four bits, which is the number up to 11, or tells how many
    bits of it follow. -/
def readVarInt (data : Nat → UInt8) (size bit : Nat) : WordResult :=
  let tag := readBits data size bit 4
  if tag.code ≠ STACKMAP_OK then tag
  else if tag.value ≤ 11 then tag
  else readBits data size tag.nextBit (payloadBits tag.value)

/-! ## Events -/

abbrev STACKMAP_EVENT_DERIVED_SLOT_ROOT : Nat := 7

/-- An event, as the reader of a stack map receives it. -/
structure StackMapEvent where
  kind : Nat
  row : Nat
  value0 : BitVec 64
  value1 : BitVec 64
  deriving DecidableEq, Repr

/-- The event buffer: null, or what it holds. -/
abbrev Events := Option (Nat → StackMapEvent)

/-- An event is written at its index if the buffer has room. Without a buffer the events are only
    counted. -/
def emitEvent (events : Events) (capacity eventIndex : Nat) (event : StackMapEvent) :
    RootResult × Events :=
  match events with
  | none => (⟨STACKMAP_OK, Words.add 64 eventIndex 1, 0⟩, none)
  | some buffer =>
    if eventIndex ≥ capacity ∨ eventIndex > 2 ^ 63 - 1 then
      (⟨STACKMAP_NO_SPACE, eventIndex, 0⟩, some buffer)
    else
      (⟨STACKMAP_OK, Words.add 64 eventIndex 1, 0⟩, some (Function.update buffer eventIndex event))

/-! ## Slot roots -/

/-- The target, as far as a slot's size goes. -/
structure Env where
  arm : Bool

/-- `SLOT_BYTES`. -/
def Env.SLOT_BYTES (env : Env) : BitVec 64 := if env.arm then -4 else -8

/-- `signedBase`. -/
def signedBase (value bits : Nat) : BitVec 64 :=
  if bits = 8 ∧ value &&& 0x80 ≠ 0 then BitVec.ofNat 64 value - 0x100
  else if bits = 16 ∧ value &&& 0x8000 ≠ 0 then BitVec.ofNat 64 value - 0x10000
  else if bits = 32 ∧ value &&& 0x80000000 ≠ 0 then BitVec.ofNat 64 value - 0x100000000
  else BitVec.ofNat 64 value

/-- What a decoder of slot roots passes on to `emitSlot`. -/
structure Target where
  kind : Nat
  row : Nat
  derivedBase : Nat
  capacity : Nat

/-- The event of a slot root. -/
def Target.event (target : Target) (bias : BitVec 64) : StackMapEvent where
  kind := target.kind
  row := target.row
  value0 := if target.kind = STACKMAP_EVENT_DERIVED_SLOT_ROOT then BitVec.ofNat 64 target.derivedBase
    else bias
  value1 := if target.kind = STACKMAP_EVENT_DERIVED_SLOT_ROOT then bias else 0

/-- `emitSlot`. -/
def emitSlot (target : Target) (events : Events) (eventIndex : Nat) (bias : BitVec 64) :
    RootResult × Events :=
  let (emitted, events) := emitEvent events target.capacity eventIndex (target.event bias)
  if emitted.code ≠ STACKMAP_OK then (emitted, events)
  else (⟨STACKMAP_OK, emitted.nextEvent, 1⟩, events)

/-- The events so far, the index of the next one, and the roots so far. -/
structure Emitted where
  events : Events
  eventIndex : Nat
  roots : Nat

/-- An early return. -/
abbrev Stop := RootResult × Events

/-- Return with an error code. -/
def Emitted.stop {α : Type} (s : Emitted) (code : Nat) : Except Stop α :=
  .error (⟨code, s.eventIndex, s.roots⟩, s.events)

/-- The lines of `decodeSlotRoots` that emit one root. -/
def emitRoot (target : Target) (s : Emitted) (bias : BitVec 64) : Except Stop Emitted :=
  let (emitted, events) := emitSlot target s.events s.eventIndex bias
  if emitted.code ≠ STACKMAP_OK then .error (⟨emitted.code, emitted.nextEvent, s.roots⟩, events)
  else .ok ⟨events, emitted.nextEvent, Words.add 64 s.roots 1⟩

section Decode

variable (env : Env) (target : Target)

/-- The loop over the bits of a chunk, and of the literal bits of a group; the first argument is
    `chunkBits - bit`, and `logicalSlot` is 0 in a group. -/
def emitBits (baseBias : BitVec 64) (logicalSlot : Nat) :
    Nat → Nat → Nat → Emitted → Except Stop Emitted
  | 0, _, _, s => .ok s
  | remaining + 1, chunk, bit, s =>
    if chunk = 0 then .ok s
    else do
      let s ← if chunk &&& 1 ≠ 0 then
          emitRoot target s (baseBias + BitVec.ofNat 64 (logicalSlot + bit) * env.SLOT_BYTES)
        else .ok s
      emitBits baseBias logicalSlot remaining (chunk >>> 1) (bit + 1) s

/-- The loop over the bits of a fill; the first argument is `bitCount - bit`. -/
def emitFill (baseBias : BitVec 64) : Nat → Nat → Emitted → Except Stop Emitted
  | 0, _, s => .ok s
  | remaining + 1, bit, s => do
    let s ← emitRoot target s (baseBias + BitVec.ofNat 64 bit * env.SLOT_BYTES)
    emitFill baseBias remaining (bit + 1) s

variable (data : Nat → UInt8) (size : Nat)

/-- The loop over the chunks of a plain bitmap. -/
def pureLoop (baseBias : BitVec 64) (remain cursor logicalSlot : Nat) (s : Emitted) :
    Except Stop Emitted :=
  if h : remain = 0 then .ok s
  else
    let chunkBits := if remain < 32 then remain else 32
    let chunkResult := readBits data size cursor chunkBits
    if chunkResult.code ≠ STACKMAP_OK then s.stop chunkResult.code
    else do
      let s ← emitBits env target baseBias logicalSlot chunkBits chunkResult.value 0 s
      pureLoop baseBias (remain - chunkBits) chunkResult.nextBit (logicalSlot + chunkBits) s
termination_by remain
decreasing_by split <;> omega

/-- The loop over the groups of a compressed bitmap. -/
def groupLoop (baseBias : BitVec 64) (remain cursor : Nat) (s : Emitted) : Except Stop Emitted :=
  if h : remain = 0 then .ok s
  else
    let pureTag := readBits data size cursor 1
    if pureTag.code ≠ STACKMAP_OK then s.stop pureTag.code
    else if pureTag.value ≠ 0 then
      let pureBits := if remain - 1 < 31 then remain - 1 else 31
      let rawResult := readBits data size pureTag.nextBit pureBits
      if rawResult.code ≠ STACKMAP_OK then s.stop rawResult.code
      else do
        let s ← emitBits env target baseBias 0 pureBits rawResult.value 0 s
        groupLoop (baseBias + 31 * env.SLOT_BYTES) (remain - 1 - pureBits) rawResult.nextBit s
    else if remain - 1 < 5 then .ok s
    else
      let allRef := readBits data size pureTag.nextBit 1
      if allRef.code ≠ STACKMAP_OK then s.stop allRef.code
      else
        let count := readVarInt data size allRef.nextBit
        if count.code ≠ STACKMAP_OK then s.stop count.code
        else
          let used := Words.sub 64 count.nextBit allRef.nextBit
          if used > remain - 2 then s.stop STACKMAP_MALFORMED
          else if count.value = 0 then .ok s
          else do
            let bitCount := Words.mul 64 count.value 31
            let s ← if allRef.value ≠ 0 then emitFill env target baseBias bitCount 0 s else .ok s
            groupLoop (baseBias + BitVec.ofNat 64 bitCount * env.SLOT_BYTES) (remain - 2 - used)
              count.nextBit s
termination_by remain
decreasing_by all_goals omega

/-- The fields of `Layout` that the slot rows take. -/
structure SlotLayout where
  slotData : Nat
  slotRecords : Nat
  slotBaseBits : Nat
  slotBitmapBits : Nat

/-- `rowStart`. -/
def SlotLayout.rowStart (layout : SlotLayout) (slotIndex : Nat) : Nat :=
  Words.add 64 layout.slotData
    (Words.mul 64 (slotIndex - 1) (Words.add 64 layout.slotBaseBits layout.slotBitmapBits))

/-- The result of a loop, as `decodeSlotRoots` returns it. -/
def finish : Except Stop Emitted → RootResult × Events
  | .ok s => (⟨STACKMAP_OK, s.eventIndex, s.roots⟩, s.events)
  | .error stop => stop

/-- The slot roots of a row of the table, in the format of the map. -/
def decodeSlotRoots (layout : SlotLayout) (slotIndex format : Nat) (events : Events)
    (eventStart : Nat) : RootResult × Events :=
  if slotIndex = 0 then (⟨STACKMAP_OK, eventStart, 0⟩, events)
  else if slotIndex > layout.slotRecords then (⟨STACKMAP_MALFORMED, eventStart, 0⟩, events)
  else
    let baseResult := readBits data size (layout.rowStart slotIndex) layout.slotBaseBits
    if baseResult.code ≠ STACKMAP_OK then (⟨baseResult.code, eventStart, 0⟩, events)
    else
      let baseBias := signedBase baseResult.value layout.slotBaseBits
      let s : Emitted := ⟨events, eventStart, 0⟩
      if format = PURE_COMPRESSED_STACKMAP then
        finish (pureLoop env target data size baseBias layout.slotBitmapBits baseResult.nextBit 0 s)
      else
        finish (groupLoop env target data size baseBias layout.slotBitmapBits baseResult.nextBit s)

end Decode

end CangjieRuntime.Stackmap
