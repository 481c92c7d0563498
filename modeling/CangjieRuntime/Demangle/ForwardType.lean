/-
  The type scanner of the decompressor (`DeCompression.cj`, `ForwardPackageName` to `ForwardTypes`).

  The scanner finds the end of a type, and expands the back-references it meets.  This is the scanner
  that does not record (`isRecord` is false): the table of back-references `treeIdMap` does not
  change then, and the state is the text.  As in the demangler, the recursive calls of `ForwardType`
  are a parameter `next`, and the loops have the fuel `fuel`.
-/
import CangjieRuntime.Demangle.Demangler

set_option linter.unusedVariables false

namespace CangjieRuntime.Demangle

open CangjieRuntime.Computation

/-! ## Characters -/

/-- `IsAlnum`: the characters of a number in base 62. -/
def isAlnum (ch : UInt8) : Bool :=
  (ch ≥ 48 ∧ ch ≤ 57) ∨ (ch ≥ 65 ∧ ch ≤ 90) ∨ (ch ≥ 97 ∧ ch ≤ 122)

/-- `IsPrimitiveType`: the letters that the scanner passes as primitive types. -/
def isPrimitiveType (ch : UInt8) : Bool := ch ∈ ascii "nucbfdasilqhtjmrDv"

/-- The codes of `OperatorKind`: of two small letters the first counts 32 times. -/
def operatorKinds : List Nat :=
  [279, 435, 422, 502, 395, 117, 556, 491, 370, 562, 371, 211, 356, 196, 144, 420, 13, 142, 465, 75]

/-- `IsOperatorName` of the decompressor. -/
def isOperatorNameAt (mangled : RtString) (idx : Nat) : Bool :=
  if idx + 1 ≥ mangled.length then false
  else
    let r0 := mangled.byte idx
    let r1 := mangled.byte (idx + 1)
    if ¬ ((r0 ≥ 97 ∧ r0 ≤ 122) ∧ (r1 ≥ 97 ∧ r1 ≤ 122)) then false
    else (r0.toNat - 97) * 32 + r1.toNat - 97 ∈ operatorKinds

/-- `IsPropName`: the mark of a setter or a getter at the index. -/
def isPropNameAt (mangled : RtString) (idx : Nat) : Bool :=
  if idx + 1 ≥ mangled.length then false
  else mangled.byte idx = 112 ∧ (mangled.byte (idx + 1) = 115 ∨ mangled.byte (idx + 1) = 103)

/-- `IsStdPkgName`: the code of a standard package at the index. -/
def isStdPkgName (mangled : RtString) (idx : Nat) : Bool :=
  if idx + 1 ≥ mangled.length then false else ¬ (mangleStdpkgMap (mangled.subStr idx 2)).isEmpty

/-! ## Numbers and names -/

/-- `GetNumber`, of a number with its `_`: the digits are added up from the last one on. -/
def getNumber (number : RtString) : BitVec 64 :=
  if number = ascii "_" then 0
  else
    let (decimal, power) := (number.take (number.length - 1)).reverse.foldl
      (fun (decimal, power) ch =>
        (match BASE62_CHARS.idxOf? ch with
          | none => decimal
          | some baseIndex => decimal + BitVec.ofNat 64 baseIndex * power, power * 62))
      ((0, 1) : BitVec 64 × BitVec 64)
    decimal + 1

/-- `ForwardNumber`: behind a number and its `_`, or where it was. -/
def forwardNumber (mangled : RtString) (idx : Nat) : Nat :=
  let curIdx := idx + ((mangled.drop idx).takeWhile isAlnum).length
  if curIdx < mangled.length ∧ mangled.byte curIdx = 95 then curIdx + 1 else idx

/-- The length of a name, unless it has more than 32 bits. -/
def nameLength (numStr : RtString) : Option Nat :=
  numStr.foldlM (fun number ch =>
    let number := number * 10 + (ch.toNat - 48)
    if number > 4294967295 then none else some number) 0

/-- `ForwardName`: behind a name with its length, an operator or a property, or where it was. -/
def forwardName (mangled : RtString) (idx : Nat) : Nat :=
  if idx ≥ mangled.length then idx
  else if isOperatorNameAt mangled idx ∨ isPropNameAt mangled idx then idx + 2
  else if ¬ isCurrentCharDigit (mangled.byte idx) then idx
  else if mangled.byte idx = 48 then idx + 1
  else
    let numStr := (mangled.drop idx).takeWhile isCurrentCharDigit
    match nameLength numStr with
    | none => idx
    | some number =>
      if idx + numStr.length + number > mangled.length then idx else idx + numStr.length + number

/-- `ForwardPrimitiveType`: behind a letter, or behind the two of `Float16`. -/
def forwardPrimitiveType (mangled : RtString) (idx : Nat) : Nat :=
  if mangled.byte idx ≠ 68 ∧ isPrimitiveType (mangled.byte idx) then idx + 1
  else if idx + 1 < mangled.length ∧ mangled.byte idx = 68 ∧ mangled.byte (idx + 1) = 104 then idx + 2
  else idx

/-- `ForwardFileNameNumber`: up to a `$`, or 13 characters. -/
def forwardFileNameNumber (mangled : RtString) (idx : Nat) : Nat :=
  let hash := (mangled.drop idx).take 13
  match hash.findIdx? (· = 36) with
  | some pos => idx + pos + 1
  | none => if hash.length = 13 ∧ hash.all isAlnum then idx + 13 else idx

/-! ## The scanner -/

/-- A scan changes the text. -/
abbrev Scan := Comp RtString

/-- `TreeIdMap`: starts and lengths. -/
abbrev TreeIdMap := List (Nat × Nat)

/-- An entry, (0, 0) if there is none. -/
def TreeIdMap.get (treeIdMap : TreeIdMap) (index : Int) : Nat × Nat :=
  if index < 0 then (0, 0) else treeIdMap.getD index.toNat (0, 0)

section Scanner

variable (treeIdMap : TreeIdMap) (fuel : Nat) (next : Nat → Scan Nat)

/-- A round of the loop of `UpdateCompressedName`: `change` and `curScanIdx`. -/
def updateStep (v : Nat × Nat) : Scan (Nat × Nat ⊕ Nat × Nat) := do
  let compressed ← get
  let (change, curScanIdx) := v
  if ¬ (curScanIdx < compressed.length ∧ compressed.byte curScanIdx = 89 ∧ ¬ treeIdMap.isEmpty) then
    return .inr v
  else
    let curIdx := forwardNumber compressed (curScanIdx + 1)
    if curIdx = curScanIdx + 1 then return .inr v
    else
      let mapIdx := (getNumber (compressed.subStr (curScanIdx + 1) (curIdx - curScanIdx - 1))).toInt
      let mapped := treeIdMap.get mapIdx
      if mapIdx ≥ treeIdMap.length ∨ mapped.2 = 0 then return .inr v
      else
        set (compressed.subStr 0 curScanIdx ++ compressed.subStr mapped.1 mapped.2 ++
          compressed.drop curIdx)
        return .inl (change + 1, curScanIdx + mapped.2)

/-- `UpdateCompressedName` at an index: how many references were expanded, and where they end. -/
def updateCompressedName (idx : Nat) : Scan (Nat × Nat) :=
  iterate (updateStep treeIdMap) fuel (0, idx)

/-- `ForwardPackageName`: behind a package, and behind the number of its file. -/
def forwardPackageName (idx : Nat) : Scan Nat := do
  let mangled ← get
  let curIdx := if isStdPkgName mangled idx then idx + 2 else forwardName mangled idx
  if curIdx < mangled.length ∧ mangled.byte curIdx = 85 then
    return forwardFileNameNumber mangled (curIdx + 1)
  else return curIdx

/-- A round of the loop of `ForwardTypes`, one type; it ends where a type makes no progress. -/
def forwardTypesStep (idx : Nat) : Scan (Nat ⊕ Nat) := do
  let mangled ← get
  if ¬ (idx < mangled.length ∧ mangled.byte idx ≠ 69) then return .inr idx
  else
    let curIdx ← next idx
    if curIdx = idx then return .inr curIdx else return .inl curIdx

/-- `ForwardTypes`: behind as many types as there are, up to an `E`. -/
def forwardTypes (startId : Nat) : Scan Nat := iterate (forwardTypesStep next) fuel startId

/-- The end of a list of types that starts at `startId`, for the type at `idx`. -/
def forwardTypesEnd (idx startId : Nat) : Scan Nat := do
  let curIdx ← forwardTypes fuel next startId
  let mangled ← get
  if curIdx < mangled.length ∧ mangled.byte curIdx = 69 then return curIdx + 1 else return idx

/-- `ForwardGenericTypes`: behind the generic arguments and their `E`, or where it was. -/
def forwardGenericTypes (idx : Nat) : Scan Nat := forwardTypesEnd fuel next idx (idx + 1)

/-- `ForwardClassType`: behind a class, struct, enum or interface. References in front of the
    package and of the name are expanded first. -/
def forwardClassType (idx : Nat) : Scan Nat := do
  let mangled ← get
  if ¬ (idx + 2 < mangled.length ∧
      (mangled.byte idx = 67 ∨ mangled.byte idx = 82 ∨ mangled.byte idx = 78) ∧
      mangled.byte (idx + 1) = 78) then return idx
  else
    let _ ← updateCompressedName treeIdMap fuel (idx + 2)
    let fid ← forwardPackageName (idx + 2)
    let _ ← updateCompressedName treeIdMap fuel fid
    let mangled ← get
    let curIdx := forwardName mangled fid
    if curIdx < mangled.length ∧ mangled.byte curIdx = 73 then
      let genericIdx ← forwardGenericTypes fuel next curIdx
      if curIdx ≠ genericIdx then return genericIdx else return idx
    else if curIdx < mangled.length ∧ mangled.byte curIdx = 69 then return curIdx + 1
    else return idx

/-- `ForwardFunctionType`: behind the result, the parameters and the `E`. -/
def forwardFunctionType (idx : Nat) : Scan Nat := do
  let curIdx ← next (idx + 2)
  forwardTypesEnd fuel next idx curIdx

/-- A round of the loop of `ForwardTupleType`: `tyCnt` and `endIdx`. -/
def tupleStep (v : BitVec 64 × Nat) : Scan (BitVec 64 × Nat ⊕ Nat) := do
  let mangled ← get
  if ¬ (v.2 < mangled.length ∧ mangled.byte v.2 ≠ 69 ∧ v.1 ≠ 0) then return .inr v.2
  else
    let tyIdx ← next v.2
    if tyIdx = v.2 then return .inr v.2 else return .inl (v.1 - 1, tyIdx)

/-- `ForwardTupleType`: behind as many types as the number in front of them says, and the `E`. -/
def forwardTupleType (idx : Nat) : Scan Nat := do
  let mangled ← get
  let curIdx := forwardNumber mangled (idx + 1)
  if curIdx = idx + 1 ∨ curIdx ≥ mangled.length ∨ idx + 1 ≥ mangled.length then return idx
  else
    let tyCnt := getNumber (mangled.subStr (idx + 1) (curIdx - idx - 1))
    let endIdx ← iterate (tupleStep next) fuel (tyCnt, curIdx)
    let mangled ← get
    if curIdx ≠ endIdx ∧ endIdx < mangled.length ∧ mangled.byte endIdx = 69 then return endIdx + 1
    else return idx

/-- `ForwardArrayType`: behind a number and one type, for arrays of both kinds. -/
def forwardArrayType (idx : Nat) : Scan Nat := do
  let mangled ← get
  if idx + 1 < mangled.length then
    let curIdx := forwardNumber mangled (idx + 1)
    if curIdx < mangled.length then
      let endIdx ← next curIdx
      if endIdx ≠ curIdx then return endIdx else return idx
    else return idx
  else return idx

/-- `ForwardGenericType`: behind a `G` and a number, or where it was. -/
def forwardGenericType (mangled : RtString) (idx : Nat) : Nat :=
  let nextIdx := forwardNumber mangled (idx + 1)
  if nextIdx ≠ idx + 1 then nextIdx else idx

/-- The cases of `ForwardType`, for the character at `idx`. -/
def forwardTypeBy (mangled : RtString) (ch : UInt8) (idx : Nat) : Scan Nat :=
  match Char.ofNat ch.toNat with
  | 'C' => forwardClassType treeIdMap fuel next idx
  | 'R' => forwardClassType treeIdMap fuel next idx
  | 'N' => forwardClassType treeIdMap fuel next idx
  | 'F' =>
    if idx + 1 < mangled.length ∧
        (mangled.byte (idx + 1) = 48 ∨ mangled.byte (idx + 1) = 67) then
      forwardFunctionType fuel next idx
    else return idx
  | 'T' => forwardTupleType fuel next idx
  | 'P' => next (idx + 1)
  | 'A' => forwardArrayType next idx
  | 'V' => forwardArrayType next idx
  | 'k' => return idx + 1
  | 'G' => return forwardGenericType mangled idx
  | 'Y' => do
    let nextIdx := forwardNumber mangled (idx + 1)
    if nextIdx ≠ idx then
      let (change, nextIndex) ← updateCompressedName treeIdMap fuel idx
      return if change = 0 then idx else nextIndex
    else return idx
  | _ => return if isPrimitiveType ch then forwardPrimitiveType mangled idx else idx

/-- The body of `ForwardType`: a type at the index, if there is a text. -/
def forwardTypeAt (idx : Nat) : Scan Nat := do
  let mangled ← get
  if idx ≥ mangled.length then return idx
  else forwardTypeBy treeIdMap fuel next mangled (mangled.byte idx) idx

end Scanner

/-- `ForwardType`: behind a type, with the types inside of it on less fuel. -/
def forwardType (treeIdMap : TreeIdMap) : Nat → Nat → Scan Nat
  | 0, idx => fun _ => none
  | fuel + 1, idx => forwardTypeAt treeIdMap (fuel + 1) (forwardType treeIdMap fuel) idx

end CangjieRuntime.Demangle
