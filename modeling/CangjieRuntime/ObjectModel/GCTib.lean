/-
  The reference bitmaps of types (`rt.objectmodel/GCTib.cj`), on 64-bit targets.

  A `GCTib` is one word: with the sign bit set its other 63 bits are the bitmap (the short form),
  otherwise it is the address of a table of bitmap bytes (the standard form).  Bit `i` says that
  the content has a reference at offset `8 * i`.  The embedding:

    * the visitor and its context are abstracted to the list of the addresses visited, in the order
      of the calls;
    * addresses are 64-bit words and wrap;
    * `CJRT_GCTibShiftUIntNative` and `CJRT_GCTibShiftUInt8` leave it to their callers that the count
      is below the operand's width; a call that does not see to it is a fault.

  The C code shifts a promoted operand, so that the 8-bit shift asks for more here than there.
-/
import CangjieRuntime.Lib.Words
import Mathlib

set_option linter.unusedVariables false

namespace CangjieRuntime.ObjectModel

/-- What an operation stops with. -/
inductive Fault
  /-- A shift count that is not below the operand's width. -/
  | shiftRange
  | abort
  | nullDeref
  deriving DecidableEq, Repr

/-- `StdGCTib` and the bitmap bytes behind it. -/
structure StdGCTib where
  nBitmapWords : Nat
  bitmapWords : Nat → Nat
  count_lt : nBitmapWords < 2 ^ 32
  word_lt : ∀ k, bitmapWords k < 2 ^ 8

/-- A `GCTib`, with the table at the address `tag` that it stands for when it is not a word. -/
structure GCTib where
  tag : Nat
  standard : StdGCTib
  tag_lt : tag < 2 ^ 64

/-- `UIntNative.Max`: all bits of a word. -/
abbrev MAX : Nat := 2 ^ 64 - 1

/-- `sizeOf<RefField>()`. -/
abbrev REF_FIELD_SIZE : Nat := 8

/-- `GCTibSignBit`: a tag with this bit is a short bitmap, any other one the address of a long
    one. -/
def gctibSignBit : Nat := 0x8000000000000000

/-- `GCTibAlignRangeStart`: up to the next multiple of 8. -/
def gctibAlignRangeStart (address : Nat) : Nat := Words.add 64 address 7 &&& (MAX ^^^ 7)

/-- `GCTibRefIndex`: the reference that starts at this distance. -/
def gctibRefIndex (bytes : Nat) : Nat := bytes >>> 3

/-- `GCTibMapIndex`: the word of the bitmap for this distance. -/
def gctibMapIndex (bytes : Nat) : Nat := bytes >>> 6

/-! ## The shifts -/

/-- `CJRT_GCTibShiftUIntNative`: a shift by the width or more is out of range. -/
def gctibShiftUIntNative (value count : Nat) : Except Fault Nat :=
  if count < 64 then .ok (value >>> count) else .error .shiftRange

/-- `CJRT_GCTibShiftUInt8`: the same for a byte. -/
def gctibShiftUInt8 (value count : Nat) : Except Fault Nat :=
  if count < 8 then .ok (value >>> count) else .error .shiftRange

/-! ## One word -/

/-- `StdGCTibVisitRefField`: the visits, and the bits and the address it writes back. -/
def stdGCTibVisitRefField (bits address : Nat) : List Nat × Nat × Nat :=
  (if bits &&& 1 ≠ 0 then [address] else [], bits >>> 1, Words.add 64 address REF_FIELD_SIZE)

/-- The loop over the bits of a word: `while (gcInfo != 0)` of `ShortGCTibForEachBitmapWord`, and the
    inner loop of `StdGCTibForEachBitmapWord`. -/
def visitWord (bits address : Nat) : List Nat :=
  if h : bits = 0 then []
  else
    let field := stdGCTibVisitRefField bits address
    field.1 ++ visitWord field.2.1 field.2.2
termination_by bits
decreasing_by
  show bits >>> 1 < bits
  omega

/-- The same loop with the early return at `rangeEnd`: the visits, and whether it returned. -/
def visitWordInRange (rangeEnd bits address : Nat) : List Nat × Bool :=
  if h : bits = 0 then ([], false)
  else if address ≥ rangeEnd then ([], true)
  else
    let field := stdGCTibVisitRefField bits address
    let (rest, returned) := visitWordInRange rangeEnd field.2.1 field.2.2
    (field.1 ++ rest, returned)
termination_by bits
decreasing_by
  show bits >>> 1 < bits
  omega

/-! ## The short form -/

/-- `ShortGCTibForEachBitmapWord`: the bits below the sign bit are the references. -/
def shortGCTibForEachBitmapWord (bitmap fieldAddress : Nat) : List Nat :=
  visitWord (bitmap &&& (MAX ^^^ gctibSignBit)) fieldAddress

/-- `ShortGCTibForEachBitmapWordInRange`: the bits before the range are shifted out. -/
def shortGCTibForEachBitmapWordInRange (bitmap baseAddress rangeStart rangeEnd : Nat) :
    Except Fault (List Nat) := do
  let gcInfo := bitmap &&& (MAX ^^^ gctibSignBit)
  let startPosition := gctibRefIndex (Words.sub 64 rangeStart baseAddress)
  let gcInfo ← gctibShiftUIntNative gcInfo startPosition
  .ok (visitWordInRange rangeEnd gcInfo rangeStart).1

/-! ## The standard form -/

/-- `sizeOf<RefField>() * 8`. -/
abbrev MAP_WORD_SIZE : Nat := REF_FIELD_SIZE * 8

/-- The loop of `StdGCTibForEachBitmapWord`, one word of eight bits a round. -/
def stdLoop (standard : StdGCTib) (index baseAddress : Nat) : List Nat :=
  if h : index < standard.nBitmapWords then
    visitWord (standard.bitmapWords index) baseAddress ++
      stdLoop standard (index + 1) (Words.add 64 baseAddress MAP_WORD_SIZE)
  else []
termination_by standard.nBitmapWords - index

/-- `StdGCTibForEachBitmapWord`: all words of the bitmap, from the first one on. -/
def stdGCTibForEachBitmapWord (standard : StdGCTib) (contentAddress : Nat) : List Nat :=
  stdLoop standard 0 contentAddress

/-- The start of a round of `StdGCTibForEachBitmapWordInRange`: the bits of the word and the address
    they start at; the first word starts at `rangeStart`. -/
def stdSelectWord (standard : StdGCTib) (startIndex rangeStart index baseAddress : Nat) :
    Except Fault (Nat × Nat) :=
  let bitmapWord := standard.bitmapWords index
  if index = startIndex ∧ bitmapWord ≠ 0 then do
    let bitmapWord ← gctibShiftUInt8 bitmapWord
      (gctibRefIndex (Words.sub 64 rangeStart baseAddress))
    .ok (bitmapWord, rangeStart)
  else .ok (bitmapWord, baseAddress)

/-- The loop of `StdGCTibForEachBitmapWordInRange`. -/
def stdLoopInRange (standard : StdGCTib) (startIndex rangeStart rangeEnd index baseAddress : Nat) :
    Except Fault (List Nat) :=
  if h : index < standard.nBitmapWords then do
    let (bitmapWord, fieldAddress) ← stdSelectWord standard startIndex rangeStart index baseAddress
    let (visits, returned) := visitWordInRange rangeEnd bitmapWord fieldAddress
    if returned then .ok visits
    else do
      let rest ← stdLoopInRange standard startIndex rangeStart rangeEnd (index + 1)
        (Words.add 64 baseAddress MAP_WORD_SIZE)
      .ok (visits ++ rest)
  else .ok []
termination_by standard.nBitmapWords - index

/-- `StdGCTibForEachBitmapWordInRange`: from the word that the range starts in. -/
def stdGCTibForEachBitmapWordInRange (standard : StdGCTib)
    (contentAddress rangeStart rangeEnd : Nat) : Except Fault (List Nat) :=
  let startIndex := gctibMapIndex (Words.sub 64 rangeStart contentAddress) % 2 ^ 32
  let baseAddress := Words.add 64 (Words.mul 64 startIndex MAP_WORD_SIZE) contentAddress
  stdLoopInRange standard startIndex rangeStart rangeEnd startIndex baseAddress

/-! ## Both forms -/

/-- `GCTibIsGCTibWord`. -/
def GCTib.isGCTibWord (gctib : GCTib) : Bool := gctib.tag &&& gctibSignBit ≠ 0

/-- `GCTibForEachBitmapWord`: the references of an object, by either form of the bitmap. -/
def gctibForEachBitmapWord (gctib : GCTib) (contentAddress : Nat) : List Nat :=
  if gctib.isGCTibWord then shortGCTibForEachBitmapWord gctib.tag contentAddress
  else stdGCTibForEachBitmapWord gctib.standard contentAddress

/-- `GCTibForEachBitmapWordInRange`: the references in a range, which may be empty once its start is
    rounded up. -/
def gctibForEachBitmapWordInRange (gctib : GCTib) (contentAddress start rangeEnd : Nat) :
    Except Fault (List Nat) :=
  let rangeStart := gctibAlignRangeStart start
  if rangeStart ≥ rangeEnd then .ok []
  else if gctib.isGCTibWord then
    shortGCTibForEachBitmapWordInRange gctib.tag contentAddress rangeStart rangeEnd
  else stdGCTibForEachBitmapWordInRange gctib.standard contentAddress rangeStart rangeEnd

end CangjieRuntime.ObjectModel
