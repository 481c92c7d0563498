/-
  The exception tables (`rt.exception/EhTable.cj`, `rt.exception/EhTablePrimitives.cj`).

  An LSDA is a header, a table of call sites, a table of action records, and a table of types that
  grows down from its start.  The embedding:

    * memory is a function from addresses to bytes, and a pointer is an address;
    * `UInt64` arithmetic wraps (`Words`), and `UInt32` and `Int32` are what the decoders make of
      them: the shift of the unsigned decoder is done on 32 bits and sign-extended;
    * the object model that lives outside the package, and the target, are an `Env`;
    * a decoder returns the value and the cursor of its caller as it leaves it: `ReadULEB128` writes
      the advanced pointer back, `ReadSLEB128` does not;
    * every loop takes fuel.
-/
import CangjieRuntime.Lib.Leb128
import CangjieRuntime.Lib.Words

set_option linter.unusedVariables false

namespace CangjieRuntime.Exception

/-- What a lookup stops with. -/
inductive Fault
  | fatal
  | outOfFuel
  deriving DecidableEq, Repr

/-- Memory, byte by byte. -/
abbrev Memory := Nat → UInt8

/-- The target, and the functions of the object model. -/
structure Env where
  apple : Bool
  arm : Bool
  getObjClass : Nat → Nat
  isSubType : Nat → Nat → Bool

/-! ## The decoders -/

abbrev SHIFT_LENGTH : Nat := 7
abbrev VALUE_MASK : Nat := 0x7f
abbrev BYTE_MAX_BIT : Nat := 0x80
abbrev SIGNED_FLAG : Nat := 0x40

abbrev ABS_PTR : Nat := 0
abbrev U_DATA_4 : Nat := 3
abbrev INDIR_PC_REL_S_DATA_4 : Nat := 155
abbrev INDIR_PC_REL_S_DATA_8 : Nat := 156

/-- `UInt64(Int64(Int32(x)))`: the sign bit of 32 bits is extended. -/
def signExtend32 (x : Nat) : Nat := if x < 2 ^ 31 then x else x + (2 ^ 64 - 2 ^ 32)

/-- The loop of `ReadULEB128`: the value and the advanced pointer. -/
def readULEB128Loop (m : Memory) : Nat → Nat → Nat → Nat → Except Fault (Nat × Nat)
  | 0, _, _, _ => .error .outOfFuel
  | fuel + 1, p, value, shift =>
    let byte := (m p).toNat
    let promoted := signExtend32 (Words.shl 32 (byte &&& VALUE_MASK) (shift &&& 31))
    let value := value ||| promoted
    if byte &&& BYTE_MAX_BIT ≠ 0 then readULEB128Loop m fuel (p + 1) value (shift + SHIFT_LENGTH)
    else .ok (value, p + 1)

/-- `ReadULEB128`: the value, and the cursor of the caller behind the bytes of the number. -/
def readULEB128 (m : Memory) (fuel p : Nat) : Except Fault (Nat × Nat) :=
  readULEB128Loop m fuel p 0 0

/-- The loop of `ReadSLEB128` over its local copy of the pointer, with the sign extension after it:
    the value. -/
def readSLEB128Loop (env : Env) (m : Memory) : Nat → Nat → Nat → Nat → Except Fault Nat
  | 0, _, _, _ => .error .outOfFuel
  | fuel + 1, p, value, shift =>
    let byte := (m p).toNat
    let value := value ||| Words.shl 64 (byte &&& VALUE_MASK) (shift &&& 63)
    let shift := shift + SHIFT_LENGTH
    if byte &&& BYTE_MAX_BIT ≠ 0 then readSLEB128Loop env m fuel (p + 1) value shift
    else
      let ones := if env.apple then 2 ^ 63 - 1 else 2 ^ 64 - 1
      if shift < 64 ∧ byte &&& SIGNED_FLAG ≠ 0 then .ok (value ||| Words.shl 64 ones shift)
      else .ok value

/-- `ReadSLEB128`: the value, an `Int64` as a word, and the cursor of the caller, which stays at the
    start of the number, for unlike `ReadULEB128` neither variant writes its pointer back. -/
def readSLEB128 (env : Env) (m : Memory) (fuel p : Nat) : Except Fault (Nat × Nat) := do
  let value ← readSLEB128Loop env m fuel p 0 0
  .ok (value, p)

/-- A number of `n` bytes, lowest first. -/
def readBytes (m : Memory) : Nat → Nat → Nat
  | 0, _ => 0
  | n + 1, p => (m p).toNat + 256 * readBytes m n (p + 1)

/-- `ReadUData4`: an unsigned number of four bytes. -/
def readUData4 (m : Memory) (p : Nat) : Nat := readBytes m 4 p

/-- `ReadIndirPcRelSData4`: a distance of four bytes from the field to a word, which is read; a
    distance of 0 stands for 0. -/
def readIndirPcRelSData4 (m : Memory) (p : Nat) : Nat :=
  let offset := readBytes m 4 p
  if offset = 0 then 0 else readBytes m 8 (Words.add 64 p offset)

/-- `ReadIndirPcRelSData8`: the same with a distance of eight bytes, and without an exception for
    0. -/
def readIndirPcRelSData8 (m : Memory) (p : Nat) : Nat :=
  let offset := readBytes m 8 p
  readBytes m 8 (Words.add 64 p offset)

/-- `ReadAbsPtr`: the address itself, or on ARM a word at a distance of four bytes with a sign. -/
def readAbsPtr (env : Env) (m : Memory) (p : Nat) : Nat :=
  if env.arm then readBytes m 4 (Words.add 64 p (signExtend32 (readBytes m 4 p)))
  else readBytes m 8 p

/-! ## The table -/

/-- `EHTable`: where the tables of an LSDA are. -/
structure EHTable where
  callSiteTableStart : Nat
  callSiteTableEnd : Nat
  actionTableStart : Nat
  ttypeEncoding : Nat
  exceptionTypeStart : Nat
  deriving DecidableEq, Repr

/-- `ScanResult`: the type that matched, the landing pad, and whether it catches. -/
structure ScanResult where
  typeIndex : Nat
  landingPad : Nat
  isCaught : Bool
  deriving DecidableEq, Repr

namespace EHTable

/-- `EHTable(lsda)`: the head is read, and the tables are found from its lengths. -/
def init (m : Memory) (fuel lsda : Nat) : Except Fault EHTable := do
  let ttypeEncoding := lsda + 1
  let (classInfoOffset, curPtr) ← readULEB128 m fuel (ttypeEncoding + 1)
  let exceptionTypeStart := curPtr + classInfoOffset
  let (callSiteTableLength, curPtr) ← readULEB128 m fuel (curPtr + 1)
  let callSiteTableEnd := curPtr + callSiteTableLength
  .ok ⟨curPtr, callSiteTableEnd, callSiteTableEnd, ttypeEncoding, exceptionTypeStart⟩

/-- The entry of the type table for `typeIndex`, as `MatchActionTable` reads it. -/
def catchType (env : Env) (m : Memory) (exceptionTypeStart flag typeIndex : Nat) :
    Except Fault Nat :=
  let entry (size : Nat) := Words.sub 64 exceptionTypeStart (Words.mul 64 typeIndex size)
  if flag = ABS_PTR then .ok (readAbsPtr env m (entry (if env.arm then 4 else 8)))
  else if flag = U_DATA_4 then .ok (readUData4 m (entry 4))
  else if flag = INDIR_PC_REL_S_DATA_4 then .ok (readIndirPcRelSData4 m (entry 4))
  else if flag = INDIR_PC_REL_S_DATA_8 then .ok (readIndirPcRelSData8 m (entry 8))
  else .error .fatal

/-- The catch clause with this type takes the exception. -/
def catches (env : Env) (exceptionRef catchType : Nat) : Bool :=
  catchType = 0 || env.isSubType (env.getObjClass exceptionRef) catchType

/-- The loop of `MatchActionTable`.  The displacement is added to the cursor that `ReadSLEB128` has
    left at the start of the displacement field. -/
def matchActionLoop (env : Env) (m : Memory) (table : EHTable) (exceptionRef flag : Nat) :
    Nat → Nat → Except Fault Nat
  | 0, _ => .error .outOfFuel
  | fuel + 1, actionPtr => do
    let typeIndex := (m actionPtr).toNat
    let actionPtr := actionPtr + 1
    let caught ← if 0 < typeIndex then do
        let type ← catchType env m table.exceptionTypeStart flag typeIndex
        .ok (catches env exceptionRef type)
      else .ok false
    if caught then .ok typeIndex
    else if m actionPtr = 0 then .ok 0
    else do
      let (offset, actionPtr) ← readSLEB128 env m fuel actionPtr
      matchActionLoop env m table exceptionRef flag fuel (Words.add 64 actionPtr offset)

/-- `MatchActionTable`: from the record of a call site on. -/
def matchActionTable (env : Env) (m : Memory) (fuel : Nat) (table : EHTable)
    (actionEntryIdx exceptionRef flag : Nat) : Except Fault Nat :=
  matchActionLoop env m table exceptionRef flag fuel
    (table.actionTableStart + Words.sub 64 actionEntryIdx 1)

/-- The loop of `ScanEHTable`. -/
def scanLoop (env : Env) (m : Memory) (table : EHTable) (ipOffset exceptionRef startIp : Nat)
    (result : ScanResult) : Nat → Nat → Except Fault ScanResult
  | 0, _ => .error .outOfFuel
  | fuel + 1, curPtr =>
    if curPtr < table.callSiteTableEnd then do
      let (start, curPtr) ← readULEB128 m fuel curPtr
      let (length, curPtr) ← readULEB128 m fuel curPtr
      let (landingPad, curPtr) ← readULEB128 m fuel curPtr
      let (actionEntry, curPtr) ← readULEB128 m fuel curPtr
      if start ≤ ipOffset ∧ ipOffset < Words.add 64 start length then
        if landingPad = 0 then scanLoop env m table ipOffset exceptionRef startIp result fuel curPtr
        else
          let landingPad := Words.add 64 startIp landingPad
          if actionEntry = 0 then .ok { result with landingPad := landingPad }
          else do
            let exceptionTypeIndex ← matchActionTable env m fuel table actionEntry exceptionRef
              (m table.ttypeEncoding).toNat
            if 0 < exceptionTypeIndex then .ok ⟨exceptionTypeIndex, landingPad, true⟩
            else scanLoop env m table ipOffset exceptionRef startIp result fuel curPtr
      else scanLoop env m table ipOffset exceptionRef startIp result fuel curPtr
    else .ok result

/-- `ScanEHTable`: the call site of `pc`, and what its actions say of the exception. -/
def scanEHTable (env : Env) (m : Memory) (fuel : Nat) (table : EHTable)
    (pc exceptionRef startIp : Nat) (result : ScanResult) : Except Fault ScanResult :=
  scanLoop env m table (Words.sub 64 (Words.sub 64 pc 1) startIp) exceptionRef startIp result fuel
    table.callSiteTableStart

/-- The table is made from the LSDA and scanned. -/
def lookup (env : Env) (m : Memory) (fuel lsda pc exceptionRef startIp : Nat)
    (result : ScanResult) : Except Fault ScanResult := do
  let table ← init m fuel lsda
  scanEHTable env m fuel table pc exceptionRef startIp result

end EHTable

end CangjieRuntime.Exception
