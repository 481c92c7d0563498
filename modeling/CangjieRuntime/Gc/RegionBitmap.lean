/-
  The region bitmap (`rt.gc/RegionBitmap.cj`): one bit for every eight bytes of a region.

  Besides the words the bitmap keeps two running counts, the live bytes and the number of ones of
  each of at most sixteen parts.  The embedding has two halves:

    * the sequential functions, over `Except Fault`: every access to a word or to a part is
      checked, so an access out of bounds shows as a fault;
    * `RegionBitmapMarkBits` as a transition system, any number of calls at once.  One action is one
      atomic load, fetch-or or fetch-add of one call (`exec`); the program counter of a call says
      which one is next.

  The two loops whose trip count the source does not bound by a constant take fuel.  Memory is
  sequentially consistent, as the atomic operations of the source ask for.
-/
import CangjieRuntime.Lib.Runs
import CangjieRuntime.Lib.Words

set_option linter.unusedVariables false

namespace CangjieRuntime.Gc

/-- What an access or a loop can end in. -/
inductive Fault
  | wordOutOfBounds
  | partOutOfBounds
  | outOfFuel
  deriving DecidableEq, Repr

namespace RegionBitmap

abbrev MARKED_BYTES_PER_BIT : Nat := 8
abbrev BITS_PER_WORD : Nat := 64
abbrev PART_COUNT : Nat := 16
abbrev UINT64_MAX : Nat := 2 ^ 64 - 1
abbrev UINT8_MAX : Nat := 2 ^ 8 - 1

end RegionBitmap

/-- The bitmap in memory. -/
structure RegionBitmap where
  partLiveBytes : Nat → Nat
  liveBytes : Nat
  wordCnt : Nat
  words : Nat → Nat

/-- The two words that the marks of an object touch, and its masks in them. -/
structure BitMaskInfo where
  headWordIdx : Nat
  headMaskBits : Nat
  tailWordCnt : Nat
  lastMaskBits : Nat
  deriving DecidableEq, Repr

/-- The word of an offset, the mask of the bits below it, and the part that the word is in. -/
structure PreMaskInfo where
  partIndex : Nat
  mask : Nat
  stepSize : Nat
  index : Nat
  deriving DecidableEq, Repr

/-- The bitmaps of a `LiveInfo` that contribute live bytes; `none` is a null pointer. -/
structure LiveInfo where
  markBitmap : Option RegionBitmap
  resurrectBitmap : Option RegionBitmap

namespace RegionBitmap

/-! ## Memory -/

/-- An atomic load of a word of marks, which fails outside of the bitmap. -/
def loadWord (b : RegionBitmap) (index : Nat) : Except Fault Nat :=
  if index < b.wordCnt then .ok (b.words index) else .error .wordOutOfBounds

/-- `fetch_or` on a mark word: the old word. -/
def fetchOrWord (b : RegionBitmap) (index value : Nat) : Except Fault (Nat × RegionBitmap) := do
  let old ← b.loadWord index
  .ok (old, { b with words := Function.update b.words index (old ||| value) })

/-- An atomic load of the live count of a part. -/
def loadPart (b : RegionBitmap) (index : Nat) : Except Fault Nat :=
  if index < PART_COUNT then .ok (b.partLiveBytes index) else .error .partOutOfBounds

/-- `fetch_add` on a 16-bit part counter. -/
def fetchAddPart (b : RegionBitmap) (index value : Nat) : Except Fault RegionBitmap := do
  let old ← b.loadPart index
  .ok { b with partLiveBytes := Function.update b.partLiveBytes index (Words.add 16 old value) }

/-- An atomic addition to the live bytes, which wraps. -/
def fetchAddLive (b : RegionBitmap) (value : Nat) : RegionBitmap :=
  { b with liveBytes := Words.add 64 b.liveBytes value }

/-- Zeroed memory after `RegionBitmapConstruct`. -/
def construct (regionSize : Nat) : RegionBitmap where
  partLiveBytes := fun _ => 0
  liveBytes := 0
  wordCnt := regionSize / (MARKED_BYTES_PER_BIT * BITS_PER_WORD)
  words := fun _ => 0

/-! ## Sequential functions -/

/-- The loop of `PopCount`; a word has at most 64 ones to clear. -/
def popCountLoop : Nat → Nat → Nat → Nat
  | 0, _, count => count
  | fuel + 1, bits, count =>
    if bits ≠ 0 then popCountLoop fuel (bits &&& (bits - 1)) (count + 1) else count

/-- The number of ones in a word. -/
def popCount (value : Nat) : Nat := popCountLoop 64 value 0

/-- `RegionBitmapGetBitMaskInfo`: the words and the masks for the bits of an object. -/
def getBitMaskInfo (start byteCnt : Nat) : BitMaskInfo :=
  let headWordIdx := start / MARKED_BYTES_PER_BIT / BITS_PER_WORD
  let headMaskBitStart := start / MARKED_BYTES_PER_BIT % BITS_PER_WORD
  let headBitCnt := Words.sub 64 BITS_PER_WORD headMaskBitStart
  let maskBitCnt := byteCnt / MARKED_BYTES_PER_BIT
  if headBitCnt ≤ maskBitCnt then
    let tailBitCnt := Words.sub 64 maskBitCnt headBitCnt
    { headWordIdx
      headMaskBits := UINT64_MAX ^^^ Words.sub 64 (Words.shl 64 1 headMaskBitStart) 1
      tailWordCnt := Words.sub 64 (Words.add 64 tailBitCnt BITS_PER_WORD) 1 / BITS_PER_WORD
      lastMaskBits := Words.sub 64 (Words.shl 64 1 (tailBitCnt % BITS_PER_WORD)) 1 }
  else
    let headMaskBitEnd := Words.add 64 headMaskBitStart maskBitCnt
    let headMaskBits := Words.sub 64 (Words.shl 64 1 headMaskBitEnd) 1
    { headWordIdx
      headMaskBits := Words.shl 64 (Words.shr 64 headMaskBits headMaskBitStart) headMaskBitStart
      tailWordCnt := 0
      lastMaskBits := 0 }

/-- The number of words in a part: the words split into at most sixteen parts, rounded up. -/
def partDivisor (regionSize : Nat) : Nat :=
  let markWordSize := regionSize / (MARKED_BYTES_PER_BIT * BITS_PER_WORD)
  let calFactor := if markWordSize < 16 then markWordSize else 16
  let markWordSize :=
    if markWordSize % calFactor ≠ 0 then
      Words.add 64 markWordSize (Words.sub 64 calFactor (markWordSize % calFactor))
    else markWordSize
  markWordSize / calFactor

/-- `RegionBitmapIsMarked`: the bit of an offset. -/
def isMarked (b : RegionBitmap) (start : Nat) : Except Fault Bool := do
  let word ← b.loadWord (start / MARKED_BYTES_PER_BIT / BITS_PER_WORD)
  .ok (word &&& Words.shl 64 1 (start / MARKED_BYTES_PER_BIT % BITS_PER_WORD) != 0)

/-- `RegionBitmapGetLiveBytes`: the count that the marks keep. -/
def getLiveBytes (b : RegionBitmap) : Nat := b.liveBytes

/-- The loop of `RegionBitmapRecomputeLiveBytes` over the `todo` words from `index` on. -/
def recomputeLoop (b : RegionBitmap) : Nat → Nat → Nat → Except Fault Nat
  | 0, _, liveBits => .ok liveBits
  | todo + 1, index, liveBits => do
    let word ← b.loadWord index
    recomputeLoop b todo (index + 1) (Words.add 64 liveBits (popCount word))

/-- `RegionBitmapRecomputeLiveBytes`: the ones of all words, as bytes. -/
def recomputeLiveBytes (b : RegionBitmap) : Except Fault Nat := do
  let liveBits ← b.recomputeLoop b.wordCnt 0 0
  .ok (Words.mul 64 liveBits MARKED_BYTES_PER_BIT)

/-- The loop of `RegionBitmapGetPreMaskInfo`; `partIndex` is a byte that starts at its maximum. -/
def partIndexLoop (step : Nat) : Nat → Nat → Nat → Except Fault Nat
  | 0, _, _ => .error .outOfFuel
  | fuel + 1, remaining, partIndex =>
    if step ≤ remaining then
      partIndexLoop step fuel (Words.sub 64 remaining step) (Words.add 8 partIndex 1)
    else .ok partIndex

/-- `RegionBitmapGetPreMaskInfo`: the word of an offset, the bits below it, and the part it is
    in. -/
def getPreMaskInfo (fuel offset regionSize : Nat) : Except Fault PreMaskInfo := do
  let index := offset / (BITS_PER_WORD * MARKED_BYTES_PER_BIT)
  let step := partDivisor regionSize
  let partIndex ← partIndexLoop step fuel index UINT8_MAX
  .ok
    { partIndex
      mask := Words.sub 64 (Words.shl 64 1 (offset / MARKED_BYTES_PER_BIT % BITS_PER_WORD)) 1
      stepSize := step
      index }

/-- The loop of `RegionBitmapGetPreLiveBytes` over whole parts: the bits counted, and the word the
    next part starts at. -/
def partsLoop (b : RegionBitmap) (stepSize : Nat) :
    Nat → Nat → Nat → Nat → Except Fault (Nat × Nat)
  | 0, _, _, _ => .error .outOfFuel
  | fuel + 1, partIndex, preLiveBits, partStartIndex =>
    if partIndex ≠ UINT8_MAX then do
      let bits ← b.loadPart partIndex
      partsLoop b stepSize fuel (Words.sub 8 partIndex 1) (Words.add 64 preLiveBits bits)
        (Words.add 64 partStartIndex stepSize)
    else .ok (preLiveBits, partStartIndex)

/-- The loop of `RegionBitmapGetPreLiveBytes` over whole words, downwards. -/
def wordsLoop (b : RegionBitmap) (partStartIndex : Nat) : Nat → Nat → Nat → Except Fault Nat
  | 0, _, _ => .error .outOfFuel
  | fuel + 1, index, liveBits =>
    if partStartIndex ≤ index then do
      let word ← b.loadWord index
      wordsLoop b partStartIndex fuel (Words.sub 64 index 1) (Words.add 64 liveBits (popCount word))
    else .ok liveBits

/-- `RegionBitmapGetPreLiveBytes`: whole parts by their counts, then whole words, then the bits
    below the offset. -/
def getPreLiveBytes (fuel : Nat) (b : RegionBitmap) (info : PreMaskInfo) : Except Fault Nat := do
  let (preLiveBits, partStartIndex) ← b.partsLoop info.stepSize fuel info.partIndex 0 0
  let word ← b.loadWord info.index
  let liveBits := popCount (word &&& info.mask)
  if info.index = partStartIndex then
    .ok (Words.mul 64 (Words.add 64 preLiveBits liveBits) MARKED_BYTES_PER_BIT)
  else
    let liveBits ← b.wordsLoop partStartIndex fuel (Words.sub 64 info.index 1) liveBits
    .ok (Words.mul 64 (Words.add 64 preLiveBits liveBits) MARKED_BYTES_PER_BIT)

/-- A `RegionBitmapGetPreLiveBytes` that is skipped for a null bitmap. -/
def preLiveBytesOf (fuel : Nat) (b : Option RegionBitmap) (mask : PreMaskInfo) : Except Fault Nat :=
  match b with
  | some b => b.getPreLiveBytes fuel mask
  | none => .ok 0

end RegionBitmap

/-- `LiveInfoGetPreLiveBytes`: the sum over both bitmaps. -/
def LiveInfo.getPreLiveBytes (fuel : Nat) (info : LiveInfo) (offset regionSize : Nat) :
    Except Fault Nat := do
  let mask ← RegionBitmap.getPreMaskInfo fuel offset regionSize
  let marked ← RegionBitmap.preLiveBytesOf fuel info.markBitmap mask
  let resurrected ← RegionBitmap.preLiveBytesOf fuel info.resurrectBitmap mask
  .ok (Words.add 64 marked resurrected)

/-! ## `RegionBitmapMarkBits`, any number of calls at once -/

namespace MarkBits

open RegionBitmap Runs

/-- The arguments of a call: the object's offset in the region and its size. -/
structure Call where
  start : Nat
  byteCnt : Nat
  deriving DecidableEq, Repr

/-- The masks of the object that a call marks. -/
def Call.info (c : Call) : BitMaskInfo := getBitMaskInfo c.start c.byteCnt

/-- The atomic operation a call does next.  A mark is a few fetch-ors and fetch-adds, one after the
    other, and between two of them any call may run. -/
inductive Pc
  | load
  | fetchOr
  | addPart
  | addLive
  /-- The loop over the tail words, at the `fetch_or` of word `idx`. -/
  | tailOr (idx : Nat)
  /-- The loop over the tail words, at the `fetch_add` for word `idx`. -/
  | tailAdd (idx : Nat)
  | lastOr
  | lastAdd
  | returned (isMarked : Bool)
  deriving DecidableEq, Repr

/-- The tests of the loops over the tail words, at word `idx`. -/
def tailPc (info : BitMaskInfo) (idx : Nat) : Pc :=
  let lastWordIdx := Words.add 64 info.headWordIdx info.tailWordCnt
  if info.lastMaskBits ≠ 0 then
    if idx < lastWordIdx then .tailOr idx else .lastOr
  else
    if idx ≤ lastWordIdx then .tailOr idx else .returned false

/-- The bitmap and where each thread is in its call. -/
structure State (τ : Type) where
  bitmap : RegionBitmap
  pc : τ → Pc

section Exec

variable {τ : Type} [DecidableEq τ] (regionSize : Nat) (call : τ → Call)

/-- A thread goes on to its next operation. -/
def State.goto (s : State τ) (t : τ) (pc : Pc) : State τ :=
  { s with pc := Function.update s.pc t pc }

/-- The next atomic operation of call `t`. -/
def exec (s : State τ) (t : τ) : Except Fault (State τ) :=
  let info := (call t).info
  let lastWordIdx := Words.add 64 info.headWordIdx info.tailWordCnt
  match s.pc t with
  | .load => do
    let old ← s.bitmap.loadWord info.headWordIdx
    .ok (s.goto t (if old &&& info.headMaskBits ≠ 0 then .returned true else .fetchOr))
  | .fetchOr => do
    let (old, bitmap) ← s.bitmap.fetchOrWord info.headWordIdx info.headMaskBits
    let s := { s with bitmap := bitmap }
    .ok (s.goto t (if old &&& info.headMaskBits ≠ 0 then .returned true else .addPart))
  | .addPart => do
    let bitmap ← s.bitmap.fetchAddPart (info.headWordIdx / partDivisor regionSize)
      (popCount info.headMaskBits % 2 ^ 16)
    let s := { s with bitmap := bitmap }
    .ok (s.goto t .addLive)
  | .addLive =>
    let s := { s with bitmap := s.bitmap.fetchAddLive (call t).byteCnt }
    .ok (s.goto t (if 0 < info.tailWordCnt then tailPc info (Words.add 64 info.headWordIdx 1)
      else .returned false))
  | .tailOr idx => do
    let (_, bitmap) ← s.bitmap.fetchOrWord idx UINT64_MAX
    let s := { s with bitmap := bitmap }
    .ok (s.goto t (.tailAdd idx))
  | .tailAdd idx => do
    let bitmap ← s.bitmap.fetchAddPart (idx / partDivisor regionSize) 64
    let s := { s with bitmap := bitmap }
    .ok (s.goto t (tailPc info (Words.add 64 idx 1)))
  | .lastOr => do
    let (_, bitmap) ← s.bitmap.fetchOrWord lastWordIdx info.lastMaskBits
    let s := { s with bitmap := bitmap }
    .ok (s.goto t .lastAdd)
  | .lastAdd => do
    let bitmap ← s.bitmap.fetchAddPart (lastWordIdx / partDivisor regionSize)
      (popCount info.lastMaskBits % 2 ^ 16)
    let s := { s with bitmap := bitmap }
    .ok (s.goto t (.returned false))
  | .returned _ => .ok s

/-- All calls, every order of their atomic operations, on a bitmap just constructed. -/
def machine : System (State τ) τ where
  init s := s.bitmap = construct regionSize ∧ ∀ t, s.pc t = .load
  step s t s' := exec regionSize call s t = .ok s'

end Exec

end MarkBits

end CangjieRuntime.Gc
