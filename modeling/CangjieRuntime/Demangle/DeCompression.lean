/-
  The decompressor (`DeCompression.cj`), recording.

  `CJMangledDeCompression` parses a name, records the parts it has seen in the table `treeIdMap`, and
  puts the text of the entry `n` in the place of a back-reference `Y<n>_`.  A part is pushed with the
  length 0 when it begins, gets its length when it ends (`TreeIdMapAssign`), and is popped when it
  does not parse.  A part whose text is already in the table is erased, and the text behind its start
  is expanded again, from the copy taken before it was parsed.

  * The state `State` is what the recursive functions share: the text of the reference `mangled`, the
    counter `cnt`, the flag `isRecord` and the table.  The text grows while it is scanned.
  * An index is an `Int`: the length of a file number after a counter can be negative
    (`TryNamePrefixPath`), and an expansion of such an entry moves the cursor back.  An index outside
    a string reads as 0.
  * The loops and the recursion have fuel, as in `ForwardType.lean`, which has the scanner with
    `isRecord` off.  The allocations of the arena succeed.
-/
import CangjieRuntime.Demangle.ForwardType
import Mathlib.Logic.Function.Iterate

set_option linter.unusedVariables false

namespace CangjieRuntime.Demangle.DeCompression

open CangjieRuntime.Computation

/-! ## Strings at an index of the code -/

/-- `RtString.[]`: 0 outside of the text. -/
def byteAt (s : RtString) (index : Int) : UInt8 := if index < 0 then 0 else s.byte index.toNat

/-- `RtString.SubStr(start, count)`, with a start that may be negative. -/
def subStr (s : RtString) (start count : Int) : RtString :=
  if start < 0 then [] else RtString.subStr s start.toNat count.toNat

/-- `RtString.SubStr(start)`: up to the end. -/
def subStrFrom (s : RtString) (start : Int) : RtString := subStr s start (s.length - start)

/-- `IsOperatorName`, false in front of the text. -/
def isOperatorName (mangled : RtString) (idx : Int) : Bool :=
  if idx < 0 then false else isOperatorNameAt mangled idx.toNat

/-- `IsPropName`, false in front of the text. -/
def isPropName (mangled : RtString) (idx : Int) : Bool :=
  if idx < 0 then false else isPropNameAt mangled idx.toNat

/-- `IsStdPkgName`, false in front of the text. -/
def isStdPkgName (mangled : RtString) (idx : Int) : Bool :=
  if idx < 0 then false else Demangle.isStdPkgName mangled idx.toNat

/-- `ForwardNumber`: in front of the text it does not move. -/
def forwardNumber (mangled : RtString) (idx : Int) : Int :=
  if idx < 0 then idx else Demangle.forwardNumber mangled idx.toNat

/-- `ForwardName`: in front of the text it does not move. -/
def forwardName (mangled : RtString) (idx : Int) : Int :=
  if idx < 0 then idx else Demangle.forwardName mangled idx.toNat

/-- `ForwardPrimitiveType`: in front of the text it does not move. -/
def forwardPrimitiveType (mangled : RtString) (idx : Int) : Int :=
  if idx < 0 then idx else Demangle.forwardPrimitiveType mangled idx.toNat

/-- `ForwardFileNameNumber`.  In front of the text it reads zeros. -/
def forwardFileNameNumber (mangled : RtString) (idx : Int) : Int :=
  if idx < 0 then
    idx + Demangle.forwardFileNameNumber (List.replicate (-idx).toNat 0 ++ mangled) 0
  else Demangle.forwardFileNameNumber mangled idx.toNat

/-! ## The table -/

/-- `TreePos`: a span of the text that references can name. -/
structure TreePos where
  start : Int
  length : Int
  deriving DecidableEq, Repr

/-- `TreeMapState`: the spans, and how many there may be. -/
structure TreeMapState where
  entries : List TreePos
  capacity : Nat
  deriving DecidableEq, Repr

namespace TreeMapState

/-- `TreeIdMap.init`: an empty table. -/
def init (capacity : Nat) : TreeMapState := ⟨[], capacity⟩

/-- `TreeIdMap.size`: the number of entries, which is the id of the next one. -/
def size (t : TreeMapState) : Int := t.entries.length

/-- `TreeIdMap.isEmpty`: without entries no reference is expanded. -/
def isEmpty (t : TreeMapState) : Bool := t.entries.isEmpty

/-- `TreeIdMap.[]`: an empty span where there is no entry. -/
def get (t : TreeMapState) (index : Int) : TreePos :=
  if index < 0 then ⟨0, 0⟩ else t.entries.getD index.toNat ⟨0, 0⟩

/-- `TreeIdMap.Set`: without effect where there is no entry. -/
def set (t : TreeMapState) (index : Int) (value : TreePos) : TreeMapState :=
  if index < 0 then t else { t with entries := t.entries.set index.toNat value }

/-- `TreeIdMap.add`: false if there is no room. -/
def add (t : TreeMapState) (value : TreePos) : Bool × TreeMapState :=
  if t.entries.length ≥ t.capacity then (false, t)
  else (true, { t with entries := t.entries ++ [value] })

/-- `TreeIdMap.removeAt`: the entries behind it move up. -/
def removeAt (t : TreeMapState) (index : Int) : TreeMapState :=
  if index < 0 then t else { t with entries := t.entries.eraseIdx index.toNat }

end TreeMapState

/-- What the scanner and the path parser share.  The source passes them on by reference; here they
    are the state of a monad. -/
structure State where
  mangled : RtString
  cnt : Int
  isRecord : Bool
  treeIdMap : TreeMapState
  deriving DecidableEq, Repr

/-- A function of `DeCompression`. -/
abbrev Scan := Comp State

/-- An `if` without an `else`. -/
def onlyIf (c : Prop) [Decidable c] (m : Scan Unit) : Scan Unit := if c then m else pure ()

/-- `HasDuplicates` of a position: whether an entry has its text. -/
def hasDuplicates (s : State) (pos : TreePos) : Bool :=
  s.treeIdMap.entries.any fun item =>
    ¬ (subStr s.mangled item.start item.length).isEmpty ∧
      subStr s.mangled item.start item.length = subStr s.mangled pos.start pos.length

/-- `HasDuplicates` of an entry: whether another entry has its text. -/
def hasDuplicatesOf (s : State) (mid : Int) : Bool :=
  if mid ≥ s.treeIdMap.size then false
  else
    let cur := s.treeIdMap.get mid
    (List.range s.treeIdMap.entries.length).any fun tid =>
      let item := s.treeIdMap.get tid
      (tid : Int) ≠ mid ∧ ¬ (subStr s.mangled item.start item.length).isEmpty ∧
        subStr s.mangled item.start item.length = subStr s.mangled cur.start cur.length

/-- `TreeIdMapPushBack`: a span whose text is in the table is not added, unless it is still
    empty. -/
def treeIdMapPushBack (pos : TreePos) : Scan Bool := do
  let s ← get
  if pos.length = 0 ∨ ¬ hasDuplicates s pos then
    let (isPush, treeIdMap) := s.treeIdMap.add pos
    set { s with treeIdMap := treeIdMap }
    return isPush
  else return false

/-- A push that `cnt` counts. -/
def pushCounted (pos : TreePos) : Scan Unit := do
  let isPush ← treeIdMapPushBack pos
  modify fun s => { s with cnt := if isPush then s.cnt + 1 else s.cnt }

/-- A round of the loop of `TreeIdMapPop`: the last entry goes. -/
def popStep (s : State) : State :=
  { s with treeIdMap := s.treeIdMap.removeAt (s.treeIdMap.size - 1), cnt := s.cnt - 1 }

/-- `TreeIdMapPop`: what was added since `cnt` was `curCnt` goes again. -/
def treeIdMapPop (curCnt : Int) : Scan Unit :=
  modify fun s => Nat.iterate popStep (s.cnt - curCnt).toNat s

/-- `TreeIdMapPop`, when the scanner records. -/
def popRecorded (curCnt : Int) : Scan Unit := do
  let s ← get
  onlyIf s.isRecord (treeIdMapPop curCnt)

/-! ## Expansion -/

/-- The entry that a back-reference at `idx` names, and the end of the reference. -/
def reference (s : State) (idx : Int) : Int × Int :=
  let curIdx := forwardNumber s.mangled (idx + 1)
  ((getNumber (subStr s.mangled (idx + 1) (curIdx - idx - 1))).toInt, curIdx)

/-- The text with the entry `mapped` in the place of what is between `idx` and `curIdx`. -/
def splice (mangled : RtString) (idx : Int) (mapped : TreePos) (curIdx : Int) : RtString :=
  subStr mangled 0 idx ++ subStr mangled mapped.start mapped.length ++
    (if curIdx < mangled.length then subStrFrom mangled curIdx else [])

/-- A round of the loop of `UpdateCompressedName` at an index: `change` and `curScanIdx`. -/
def updateStep (v : Int × Int) : Scan (Int × Int ⊕ Int × Int) := do
  let s ← get
  let (change, curScanIdx) := v
  if ¬ (curScanIdx < s.mangled.length ∧ byteAt s.mangled curScanIdx = 89 ∧ ¬ s.treeIdMap.isEmpty) then
    return .inr v
  else
    let (mapIdx, curIdx) := reference s curScanIdx
    let mapped := s.treeIdMap.get mapIdx
    if curIdx = curScanIdx + 1 ∨ mapIdx ≥ s.treeIdMap.size ∨ mapped.length = 0 then return .inr v
    else
      set { s with mangled := splice s.mangled curScanIdx mapped curIdx }
      return .inl (change + 1, curScanIdx + mapped.length)

/-- A round of the loop of `UpdateCompressedName` between two indices: `idx` and `endId`. -/
def updateAllStep (v : Int × Int) : Scan (Int × Int ⊕ Unit) := do
  let s ← get
  let (idx, endId) := v
  if ¬ (idx < endId ∧ idx < s.mangled.length) then return .inr ()
  else if byteAt s.mangled idx = 89 ∧ ¬ s.treeIdMap.isEmpty ∧ idx + 1 < s.mangled.length then
    let (mapIdx, curIdx) := reference s idx
    let mapped := s.treeIdMap.get mapIdx
    if curIdx = idx + 1 then return .inl (idx + 1, endId)
    else if mapIdx ≥ s.treeIdMap.size then return .inr ()
    else if mapped.length = 0 then return .inl (idx + 1, endId)
    else
      let mangled := splice s.mangled idx mapped curIdx
      set { s with mangled := mangled }
      return .inl (idx + mapped.length, mangled.length)
  else return .inl (idx + 1, endId)

section Scanner

variable (fuel : Nat) (next : Int → Scan Int)

/-- `UpdateCompressedName` at an index: how many references were expanded, and where they end. -/
def updateCompressedName (idx : Int) : Scan (Int × Int) := iterate updateStep fuel (0, idx)

/-- `UpdateCompressedName` between two indices. -/
def updateCompressedNames (sid eid : Int) : Scan Unit := iterate updateAllStep fuel (sid, eid)

/-- `TreeIdMapErase`: an entry goes, and the references behind `sid` are expanded again with the ids
    of now. -/
def treeIdMapErase (entityId sid : Int) : Scan Unit := do
  modify fun s => { s with treeIdMap := s.treeIdMap.removeAt entityId }
  let s ← get
  updateCompressedNames fuel sid s.mangled.length
  modify fun s => { s with cnt := s.cnt - 1 }

/-- `TreeIdMapAssign`: the entry `mapId` is what is between `idx` and `nextIdx`.  If the table has
    its text already, the entry goes, and the text is expanded from the copy. -/
def treeIdMapAssign (mangledCopy : RtString) (mapId idx nextIdx : Int) : Scan Unit := do
  let s ← get
  if mapId ≥ s.treeIdMap.size then return ()
  else
    let old := s.treeIdMap.get mapId
    modify fun s =>
      { s with treeIdMap := s.treeIdMap.set mapId ⟨old.start, nextIdx - idx⟩ }
    let s ← get
    onlyIf (hasDuplicatesOf s mapId) do
      modify fun s => { s with mangled := mangledCopy }
      treeIdMapErase fuel mapId idx

/-! ## The scanner -/

/-- A push of what is between `idx` and `nextIdx`, when the scanner records and `c` holds. -/
def pushRecorded (c : Prop) [Decidable c] (idx nextIdx : Int) : Scan Unit := do
  let s ← get
  onlyIf (s.isRecord ∧ c) (pushCounted ⟨idx, nextIdx - idx⟩)

/-- `ForwardPackageName`: behind a package and the number of its file, which are entries of their
    own. -/
def forwardPackageName (idx : Int) : Scan Int := do
  let s ← get
  let curIdx := if isStdPkgName s.mangled idx then idx + 2 else forwardName s.mangled idx
  pushRecorded (curIdx ≠ idx) idx curIdx
  let s ← get
  if curIdx < s.mangled.length ∧ byteAt s.mangled curIdx = 85 then
    let fid := forwardFileNameNumber s.mangled (curIdx + 1)
    pushRecorded (fid ≠ curIdx + 1) curIdx fid
    return fid
  else return curIdx

/-- A round of the loop of `ForwardTypes`, one type; it ends where a type makes no progress. -/
def forwardTypesStep (idx : Int) : Scan (Int ⊕ Int) := do
  let s ← get
  if ¬ (idx < s.mangled.length ∧ byteAt s.mangled idx ≠ 69) then return .inr idx
  else
    let curIdx ← next idx
    if curIdx = idx then return .inr curIdx else return .inl curIdx

/-- `ForwardTypes`: behind as many types as there are, up to an `E`. -/
def forwardTypes (startId : Int) : Scan Int := iterate (forwardTypesStep next) fuel startId

/-- The end of a list of types that starts at `startId`, for the type at `idx`: what was recorded
    since `curCnt` is popped if the list has no end. -/
def forwardTypesEnd (idx startId curCnt : Int) : Scan Int := do
  let curIdx ← forwardTypes fuel next startId
  let s ← get
  if curIdx < s.mangled.length ∧ byteAt s.mangled curIdx = 69 then return curIdx + 1
  else
    popRecorded curCnt
    return idx

/-- `ForwardGenericTypes`: behind the generic arguments and their `E`, or where it was. -/
def forwardGenericTypes (idx : Int) : Scan Int := do
  let s ← get
  forwardTypesEnd fuel next idx (idx + 1) s.cnt

/-- `ForwardClassType`: behind a class, struct, enum or interface. Its package and its name become
    entries, which are popped if it has no end. -/
def forwardClassType (idx : Int) : Scan Int := do
  let s ← get
  let curCnt := s.cnt
  if ¬ (idx + 2 < s.mangled.length ∧
      (byteAt s.mangled idx = 67 ∨ byteAt s.mangled idx = 82 ∨ byteAt s.mangled idx = 78) ∧
      byteAt s.mangled (idx + 1) = 78) then return idx
  else
    let _ ← updateCompressedName fuel (idx + 2)
    let fid ← forwardPackageName (idx + 2)
    let _ ← updateCompressedName fuel fid
    let s ← get
    let curIdx := forwardName s.mangled fid
    pushRecorded (curIdx ≠ fid) fid curIdx
    let s ← get
    if curIdx < s.mangled.length ∧ byteAt s.mangled curIdx = 73 then
      let genericIdx ← forwardGenericTypes fuel next curIdx
      if curIdx ≠ genericIdx then return genericIdx
      else
        popRecorded curCnt
        return idx
    else if curIdx < s.mangled.length ∧ byteAt s.mangled curIdx = 69 then return curIdx + 1
    else
      popRecorded curCnt
      return idx

/-- `ForwardFunctionType`: behind the result, the parameters and the `E`. -/
def forwardFunctionType (idx : Int) : Scan Int := do
  let s ← get
  let curIdx ← next (idx + 2)
  forwardTypesEnd fuel next idx curIdx s.cnt

/-- A round of the loop of `ForwardTupleType`: `tyCnt` and `endIdx`. -/
def tupleStep (v : BitVec 64 × Int) : Scan (BitVec 64 × Int ⊕ Int) := do
  let s ← get
  if ¬ (v.2 < s.mangled.length ∧ byteAt s.mangled v.2 ≠ 69 ∧ v.1 ≠ 0) then return .inr v.2
  else
    let tyIdx ← next v.2
    if tyIdx = v.2 then return .inr v.2 else return .inl (v.1 - 1, tyIdx)

/-- `ForwardTupleType`: behind as many types as the number in front of them says, and the `E`. -/
def forwardTupleType (idx : Int) : Scan Int := do
  let s ← get
  let curIdx := forwardNumber s.mangled (idx + 1)
  if curIdx = idx + 1 ∨ curIdx ≥ s.mangled.length ∨ idx + 1 ≥ s.mangled.length then return idx
  else
    let curCnt := s.cnt
    let tyCnt := getNumber (subStr s.mangled (idx + 1) (curIdx - idx - 1))
    let endIdx ← iterate (tupleStep next) fuel (tyCnt, curIdx)
    let s ← get
    if curIdx ≠ endIdx ∧ endIdx < s.mangled.length ∧ byteAt s.mangled endIdx = 69 then
      return endIdx + 1
    else
      popRecorded curCnt
      return idx

/-- `ForwardCPointer`: behind the type that is pointed to. -/
def forwardCPointer (idx : Int) : Scan Int := next (idx + 1)

/-- The type of the elements of an array, behind the number of dimensions. -/
def forwardElement (idx : Int) : Scan (Option Int) := do
  let s ← get
  let curIdx := forwardNumber s.mangled (idx + 1)
  if idx + 1 < s.mangled.length ∧ curIdx < s.mangled.length then
    let endIdx ← next curIdx
    return if endIdx ≠ curIdx then some endIdx else none
  else return none

/-- `ForwardArrayType`: behind a number and one type, for arrays of both kinds. -/
def forwardArrayType (idx : Int) : Scan Int := do
  let s ← get
  match ← forwardElement next idx with
  | some endIdx => return endIdx
  | none =>
    popRecorded s.cnt
    return idx

/-- `ForwardGenericType`: behind a `G` and a number, or where it was. -/
def forwardGenericType (mangled : RtString) (idx : Int) : Int :=
  let nextIdx := forwardNumber mangled (idx + 1)
  if nextIdx ≠ idx + 1 then nextIdx else idx

/-- The cases of `ForwardType` whose type becomes an entry. -/
def forwardEntryType (mangled : RtString) (ch : UInt8) (idx : Int) : Scan Int :=
  if ch = 67 ∨ ch = 82 ∨ ch = 78 then forwardClassType fuel next idx
  else if ch = 70 then
    if idx + 1 < mangled.length ∧ (byteAt mangled (idx + 1) = 48 ∨ byteAt mangled (idx + 1) = 67) then
      forwardFunctionType fuel next idx
    else return idx
  else if ch = 84 then forwardTupleType fuel next idx
  else if ch = 80 then forwardCPointer next idx
  else if ch = 65 ∨ ch = 86 then forwardArrayType next idx
  else if ch = 71 then return forwardGenericType mangled idx
  else return idx

/-- The expansion of the case of a back-reference. -/
def referenceUpdate (mangled : RtString) (idx : Int) : Scan (Int × Int) :=
  let nextIdx := forwardNumber mangled (idx + 1)
  if nextIdx ≠ idx then updateCompressedName fuel idx else pure (0, nextIdx)

/-- The case of a back-reference. -/
def forwardReference (mangled : RtString) (idx curCnt : Int) : Scan Int := do
  let v ← referenceUpdate fuel mangled idx
  popRecorded curCnt
  return if v.1 = 0 then idx else v.2

/-- The end of `ForwardType`: the entry gets its length, or goes. -/
def closeEntry (mangledCopy : RtString) (mapId idx nextIdx curCnt : Int) : Scan Unit := do
  let s ← get
  onlyIf s.isRecord
    (if nextIdx ≠ idx then treeIdMapAssign fuel mangledCopy mapId idx nextIdx
      else treeIdMapPop curCnt)

/-- The body of `ForwardType`. -/
def forwardTypeAt (idx : Int) : Scan Int := do
  let s ← get
  if idx ≥ s.mangled.length then return idx
  else
    let ch := byteAt s.mangled idx
    let curCnt := s.cnt
    let mangledCopy := s.mangled
    let mapId := s.treeIdMap.size
    onlyIf s.isRecord (pushCounted ⟨idx, 0⟩)
    if ch = 107 then
      popRecorded curCnt
      return idx + 1
    else if ch = 89 then forwardReference fuel mangledCopy idx curCnt
    else if isPrimitiveType ch then
      popRecorded curCnt
      return forwardPrimitiveType mangledCopy idx
    else
      let nextIdx ← forwardEntryType fuel next mangledCopy ch idx
      closeEntry fuel mangledCopy mapId idx nextIdx curCnt
      return nextIdx

end Scanner

/-- `ForwardType`: behind a type, with the types inside of it on less fuel. -/
def forwardType : Nat → Int → Scan Int
  | 0, idx => fun _ => none
  | fuel + 1, idx => forwardTypeAt (fuel + 1) (forwardType fuel) idx

/-! ## The path -/

section Path

variable (fuel : Nat)

/-- `ForwardTypes` of the path parser. -/
def forwardTypesOf (startId : Int) : Scan Int := forwardTypes fuel (forwardType fuel) startId

/-- `TryExtendPath`: the type that an extension extends, with a file number and a counter behind
    it. -/
def tryExtendPath (idx entityId : Int) : Scan Int := do
  let s ← get
  let mangledCopy := s.mangled
  let tyId ← forwardType fuel (idx + 1)
  let (change, _) ← updateCompressedName fuel tyId
  let s ← get
  if tyId < s.mangled.length ∧ byteAt s.mangled tyId = 85 then
    let nextIdx := forwardFileNameNumber s.mangled (tyId + 1)
    onlyIf (nextIdx ≠ tyId + 1 ∧ change = 0) (pushCounted ⟨tyId, nextIdx - tyId⟩)
    let (change, _) ← updateCompressedName fuel nextIdx
    let s ← get
    if nextIdx < s.mangled.length ∧ byteAt s.mangled nextIdx = 75 then
      let lid := nextIdx
      let nextIdx := forwardNumber s.mangled (lid + 1)
      treeIdMapAssign fuel mangledCopy entityId idx nextIdx
      onlyIf (nextIdx ≠ lid + 1 ∧ change = 0) (pushCounted ⟨lid, nextIdx - lid⟩)
      return nextIdx
    else return idx
  else return tyId

/-- `TryLambdaPath`: a lambda and its number. -/
def tryLambdaPath (idx entityId change : Int) : Scan Int := do
  let s ← get
  let nextIdx := forwardNumber s.mangled (idx + 1)
  if nextIdx = s.mangled.length - 1 ∧ byteAt s.mangled nextIdx = 69 then return idx
  else
    let nextIdx := if nextIdx = idx + 1 then idx else nextIdx
    onlyIf (nextIdx ≠ idx ∨ change > 0) (treeIdMapAssign fuel s.mangled entityId idx nextIdx)
    return nextIdx

/-- The parameter types behind an `H`, to the `E` or to the end of the name. -/
def tryParameters (mangledCopy : RtString) (idx entityId startId : Int) : Scan Int := do
  let nextIdx ← forwardTypesOf fuel startId
  let s ← get
  if nextIdx < s.mangled.length ∧ byteAt s.mangled nextIdx = 69 then
    treeIdMapAssign fuel mangledCopy entityId idx (nextIdx + 1)
    return nextIdx + 1
  else if nextIdx = s.mangled.length then
    treeIdMapAssign fuel mangledCopy entityId idx nextIdx
    return nextIdx
  else return idx

/-- `TryGenericPrefixPath`: the generic arguments of a name, and its parameters if an `H`
    follows. -/
def tryGenericPrefixPath (idx entityId startId : Int) : Scan Int := do
  let s ← get
  let mangledCopy := s.mangled
  let nextIdx ← forwardTypesOf fuel (startId + 1)
  let s ← get
  if nextIdx < s.mangled.length ∧ byteAt s.mangled nextIdx = 69 then
    treeIdMapAssign fuel mangledCopy entityId idx (nextIdx + 1)
    return nextIdx + 1
  else if nextIdx < s.mangled.length ∧ byteAt s.mangled nextIdx = 72 then
    tryParameters fuel mangledCopy idx entityId (nextIdx + 1)
  else return idx

/-- The file number behind a name, `idFlag` where its `U` is.  The number is looked for behind
    `nameIdx`, which is before `idFlag` if the name has a counter. -/
def tryFileNumber (mangledCopy : RtString) (idx entityId nameIdx idFlag change : Int) : Scan Int := do
  let s ← get
  let nextIdx := forwardFileNameNumber s.mangled (nameIdx + 1)
  treeIdMapAssign fuel mangledCopy entityId idx nextIdx
  onlyIf (nextIdx ≠ idFlag + 1 ∧ change = 0) (pushCounted ⟨idFlag, nextIdx - idFlag⟩)
  return if nextIdx = nameIdx + 1 then nameIdx else nextIdx

/-- What is behind a name and its counter. -/
def trySuffix (mangledCopy : RtString) (idx entityId nameIdx idFlag : Int) : Scan Int := do
  let s ← get
  if idFlag < s.mangled.length then
    let (change, _) ← updateCompressedName fuel idFlag
    let s ← get
    if byteAt s.mangled idFlag = 85 then
      tryFileNumber fuel mangledCopy idx entityId nameIdx idFlag change
    else if byteAt s.mangled idFlag = 73 then tryGenericPrefixPath fuel idx entityId idFlag
    else if byteAt s.mangled idFlag = 72 then
      tryParameters fuel mangledCopy idx entityId (nameIdx + 1)
    else return nameIdx
  else return idFlag

/-- `TryNamePrefixPath`: a name with its counter and what is behind it; the name alone becomes an
    entry, and so does the whole. -/
def tryNamePrefixPath (idx entityId change : Int) : Scan Int := do
  let s ← get
  let mangledCopy := s.mangled
  let nameIdx := forwardName s.mangled idx
  let nextIdx :=
    if nameIdx < s.mangled.length ∧ byteAt s.mangled nameIdx = 75 then
      forwardNumber s.mangled (nameIdx + 1)
    else nameIdx
  onlyIf (nextIdx ≠ idx ∧ change = 0) (pushCounted ⟨idx, nextIdx - idx⟩)
  let nextIdx ← trySuffix fuel mangledCopy idx entityId nameIdx nextIdx
  onlyIf (nextIdx = nameIdx) do
    modify fun s =>
      let old := s.treeIdMap.get entityId
      { s with treeIdMap := s.treeIdMap.set entityId ⟨old.start, nameIdx - idx⟩ }
    treeIdMapPop 1
  return nextIdx

/-- A part of the path, by the character `ch` at `idx`. -/
def tryPart (ch : UInt8) (idx entityId change : Int) : Scan Int := do
  let s ← get
  if ch = 48 then
    let nextIdx := forwardNumber s.mangled (idx + 1)
    onlyIf (nextIdx ≠ idx + 1) (treeIdMapAssign fuel s.mangled entityId idx nextIdx)
    return if nextIdx = idx + 1 ∨ change > 0 then idx else nextIdx
  else if isCurrentCharDigit ch ∨ isOperatorName s.mangled idx ∨ isPropName s.mangled idx then
    tryNamePrefixPath fuel idx entityId change
  else if ch = 88 then tryExtendPath fuel idx entityId
  else if ch = 76 then tryLambdaPath fuel idx entityId change
  else if isStdPkgName s.mangled idx then
    let nextIdx ← forwardPackageName idx
    onlyIf (nextIdx ≠ idx ∨ change = 0) (treeIdMapAssign fuel s.mangled entityId idx nextIdx)
    return nextIdx
  else return idx

/-- A round of the loop of `TryParsePath`: one part, which has an entry until it turns out to be
    none. -/
def parsePathStep (idx : Int) : Scan (Int ⊕ Int) := do
  let s ← get
  if ¬ idx < s.mangled.length then return .inr idx
  else
    let ch := byteAt s.mangled idx
    let (change, _) ← updateCompressedName fuel idx
    let isPush ← treeIdMapPushBack ⟨idx, 0⟩
    modify fun s => { s with cnt := if isPush then 1 else 0 }
    let s ← get
    let nextIdx ← tryPart fuel ch idx (s.treeIdMap.size - 1) change
    if nextIdx ≠ idx then return .inl nextIdx
    else
      treeIdMapPop 0
      return .inr idx

/-- `TryParsePath`: the parts of a path, one after the other, while the scanner records. -/
def tryParsePath : Scan Int := do
  modify fun s => { s with isRecord := true }
  let idx ← iterate (parsePathStep fuel) fuel 0
  modify fun s => { s with isRecord := false }
  return idx

end Path

/-! ## The name -/

/-- `StripCangjieAt`: an `@` in front is passed. -/
def stripCangjieAt (identifier : RtString) (idx : Int) : Int :=
  if idx < identifier.length ∧ byteAt identifier idx = 64 then idx + 1 else idx

/-- `StripCangjiePrefix`: the `_C` of a name of Cangjie is passed, or the `_CV` of a wrapped one. -/
def stripCangjiePrefix (identifier : RtString) (idx : Int) : Int :=
  if idx + 1 < identifier.length ∧ byteAt identifier idx = 95 ∧ byteAt identifier (idx + 1) = 67 then
    if idx + 2 < identifier.length ∧ byteAt identifier (idx + 2) = 86 then idx + 3 else idx + 2
  else idx

/-- `IsSamePrefix`: no difference at the two places from `idx` on that both strings have. -/
def isSamePrefix (first second : RtString) (idx : Nat) : Bool :=
  (List.range' idx 2).all fun i =>
    ¬ (i < first.length ∧ i < second.length ∧ first.byte i ≠ second.byte i)

/-- `IsGlobalEncode`: the name of a global variable or initializer. -/
def isGlobalEncode (mangled : RtString) : Bool :=
  isSamePrefix mangled (ascii "GV") 0 ∨ isSamePrefix mangled (ascii "GP") 0 ∨
    isSamePrefix mangled (ascii "GF") 0

/-- `IsDefaultParamFuncEncode`: the name of an initializer of a parameter. -/
def isDefaultParamFuncEncode (mangled : RtString) : Bool := isSamePrefix mangled (ascii "PI") 0

/-- `IsCompressed`: some `Y` has a number behind it. -/
def isCompressed (mangled : RtString) : Bool :=
  (List.range mangled.length).any fun pos =>
    mangled.byte pos = 89 ∧ Demangle.forwardNumber mangled (pos + 1) ≠ pos + 1

/-- The counter behind `K` in front of an `E`. -/
def isCounterEncode (mangled : RtString) (idx : Int) : Bool :=
  let idx := forwardNumber mangled (idx + 1)
  idx < mangled.length ∧ byteAt mangled idx = 69

/-- `IsVarDeclEncode`: what is left behind the path is the end of a variable: a name, a reference or
    nothing, a counter, and an `E`. -/
def isVarDeclEncode (mangled : RtString) : Bool :=
  if mangled.length = 0 then false
  else if mangled.byte 0 = 69 then true
  else if mangled.byte 0 = 89 then isCounterEncode mangled 0
  else if isCurrentCharDigit (mangled.byte 0) then
    let idx := forwardName mangled 0
    if idx < mangled.length ∧ byteAt mangled idx = 75 then isCounterEncode mangled idx
    else idx < mangled.length ∧ byteAt mangled idx = 69
  else if mangled.byte 0 = 75 then isCounterEncode mangled 0
  else false

/-- The fields of `DeCompression` that the parse of a name changes. -/
structure Decompressor where
  currentIndex : Int
  decompressed : RtString
  treeIdMap : TreeMapState
  deriving DecidableEq, Repr

section Name

variable (fuel : Nat)

/-- The state of a scan of `decompressed` while `isRecord` is on, with a new counter. -/
def Decompressor.recording (d : Decompressor) : State := ⟨d.decompressed, 0, true, d.treeIdMap⟩

/-- `SpanningVarDeclTree`: the name of the variable is expanded, or becomes an entry. -/
def spanningVarDeclTree (d : Decompressor) : Option Decompressor := do
  let ((change, _), s) ← updateCompressedName fuel d.currentIndex d.recording
  let idx := forwardName s.mangled d.currentIndex
  if s.mangled.length > 0 ∧ isCurrentCharDigit (byteAt s.mangled d.currentIndex) ∧
      idx ≠ d.currentIndex ∧ change = 0 then
    let (_, s) ← treeIdMapPushBack ⟨d.currentIndex, idx - d.currentIndex⟩ s
    return { d with decompressed := s.mangled, treeIdMap := s.treeIdMap }
  else return { d with decompressed := s.mangled, treeIdMap := s.treeIdMap }

/-- The types behind an `I` or an `H`.  They are scanned in a reference of their own: `decompressed`
    stays as it is. -/
def spanningTypes (letter : UInt8) (d : Decompressor) (idx : Int) :
    Option (Decompressor × Int) := do
  if idx < d.decompressed.length ∧ byteAt d.decompressed idx = letter then
    let (nextIdx, s) ← forwardTypesOf fuel (idx + 1) d.recording
    return ({ d with treeIdMap := s.treeIdMap }, if nextIdx ≠ idx + 1 then nextIdx else idx)
  else return (d, idx)

/-- `SpanningFuncDeclTree`: the name of the function, its counter, its generic arguments and its
    parameters, in this order. -/
def spanningFuncDeclTree (d : Decompressor) : Option Decompressor := do
  let start := d.currentIndex
  if d.decompressed.length = 0 ∨ byteAt d.decompressed start = 76 then return d
  else
    let ((change, _), s) ← updateCompressedName fuel start d.recording
    let isName := isCurrentCharDigit (byteAt s.mangled start) ∨ isOperatorName s.mangled start ∨
      isPropName s.mangled start
    let idx := if isName then forwardName s.mangled start else start
    let (_, s) ←
      if isName ∧ idx ≠ start ∧ change = 0 then do
        let (_, s) ← treeIdMapPushBack ⟨start, s.mangled.length - start⟩ s
        treeIdMapPushBack ⟨start, idx - start⟩ s
      else some (false, s)
    let ((change, _), s) ← updateCompressedName fuel idx s
    let nextIdx := forwardNumber s.mangled (idx + 1)
    let isCounter := idx < s.mangled.length ∧ byteAt s.mangled idx = 75 ∧ nextIdx ≠ idx + 1 ∧ change = 0
    let (_, s) ←
      if isCounter then treeIdMapPushBack ⟨idx, nextIdx - idx⟩ s else some (false, s)
    let idx := if isCounter then nextIdx else idx
    let d := { d with decompressed := s.mangled, treeIdMap := s.treeIdMap }
    let (d, idx) ← spanningTypes fuel 73 d idx
    let (d, _) ← spanningTypes fuel 72 d idx
    return d

/-- The parse of the path of `demangled`, in an empty table with room for the name. -/
def parseName (mangledName demangled : RtString) : Option Decompressor := do
  let (currentIndex, s) ←
    tryParsePath fuel ⟨demangled, 0, false, TreeMapState.init (mangledName.length + 1)⟩
  return ⟨currentIndex, s.mangled, s.treeIdMap⟩

/-- `CJMangledDeCompression`: the name with its references expanded. One that is not compressed, or
    not the name of a declaration, is returned as it is. -/
def cjMangledDeCompression (mangledName : RtString) (isType : Bool) : Option RtString :=
  if ¬ isCompressed mangledName ∨ mangledName.isEmpty then some mangledName
  else
    let pid := stripCangjieAt mangledName 0
    if mangledName.isEmpty ∨ isType ∨ ¬ isSamePrefix mangledName (ascii "_C") pid.toNat then
      some mangledName
    else
      let pid := stripCangjiePrefix mangledName pid
      let demangled := subStrFrom mangledName pid
      if isGlobalEncode demangled then some mangledName
      else if isDefaultParamFuncEncode demangled then do
        let pid := pid + 2
        let d ← parseName fuel mangledName (subStrFrom demangled 2)
        let d ← if isCompressed d.decompressed then spanningFuncDeclTree fuel d else some d
        return if pid = 0 then d.decompressed else subStr mangledName 0 pid ++ d.decompressed
      else if ¬ demangled.isEmpty ∧ byteAt demangled 0 = 78 then do
        let pid := pid + 1
        let d ← parseName fuel mangledName (subStrFrom demangled 1)
        let rest := if d.currentIndex ≥ d.decompressed.length then []
          else subStrFrom d.decompressed d.currentIndex
        let d ←
          if ¬ isCompressed rest then some d
          else if isVarDeclEncode rest then spanningVarDeclTree fuel d
          else spanningFuncDeclTree fuel d
        return if pid = 0 then d.decompressed else subStr mangledName 0 pid ++ d.decompressed
      else some demangled

end Name

end CangjieRuntime.Demangle.DeCompression
