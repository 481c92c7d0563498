/-
  Strings of the demangler (`RawString.cj`, `Literals.cj`).

  A string is the list of its bytes.  An index outside it reads as 0, and a part that is not there
  is empty.  A string that the code builds lives in an arena, where every allocation succeeds.

  A literal has no arena, and `RtConcat` allocates in the arena of its left or its right string: of
  two strings without one it makes the empty string, unless one of them is empty (`rtConcat`).  Most
  texts are cut from the mangled name or built from such a cut, so that one of the two has the arena,
  and concatenation is `++`.  Where a string may have none it is a `Text`: the name of an operator in
  a path, on its way through the slots, and the package in front of a global initializer.
-/
import Mathlib.Data.List.Basic

set_option linter.unusedVariables false

namespace CangjieRuntime.Demangle

/-- `RtString`: its bytes. The source's is a view into a buffer. -/
abbrev RtString := List UInt8

/-- A literal of the table `RtLit`. -/
def ascii (s : String) : RtString := s.toList.map fun c => c.toNat.toUInt8

/-- What holds of each byte of a literal is checked byte by byte. -/
theorem forall_chars {p : UInt8 → Prop} [DecidablePred p] {s : RtString}
    (h : s.all (fun ch => decide (p ch)) = true) : ∀ ch ∈ s, p ch :=
  fun ch hch => of_decide_eq_true (List.all_eq_true.mp h ch hch)

/-- `RtString.[]`: 0 behind the end. -/
def RtString.byte (s : RtString) (index : Nat) : UInt8 := s.getD index 0

/-- `RtString.SubStr(start, count)`: cut off at the end of the text. -/
def RtString.subStr (s : RtString) (start count : Nat) : RtString := (s.drop start).take count

/-- `RtString.Find(pattern, start)`: the first occurrence from `start` on. -/
def RtString.find (s pattern : RtString) (start : Nat) : Option Nat :=
  if start > s.length ∨ pattern.length > s.length - start then none
  else if pattern.length = 0 then some start
  else (List.range' start (s.length - pattern.length - start + 1)).find? fun pos =>
    s.subStr pos pattern.length == pattern

/-- `EndsWith`: the suffix as a whole, so that a longer one is none. -/
def endsWith (s suffix : RtString) : Bool :=
  if suffix.length > s.length then false else s.drop (s.length - suffix.length) == suffix

/-- `RtDivideBy10`: shifts and additions, and a correction by the remainder. -/
def rtDivideBy10 (inputValue : BitVec 64) : BitVec 64 :=
  let quotient := (inputValue >>> 1) + (inputValue >>> 2)
  let quotient := quotient + (quotient >>> 4)
  let quotient := quotient + (quotient >>> 8)
  let quotient := quotient + (quotient >>> 16)
  let quotient := quotient + (quotient >>> 32)
  let quotient := quotient >>> 3
  let remainder := inputValue - quotient * 10
  quotient + ((remainder + 6) >>> 4)

/-- The digits of a number, in front of `digits`; a 64-bit number has at most 20. -/
def rtDigits : Nat → BitVec 64 → RtString → RtString
  | 0, value, digits => digits
  | fuel + 1, value, digits =>
    if value = 0 then digits
    else
      let quotient := rtDivideBy10 value
      let remainder := value - quotient * 10
      rtDigits fuel quotient ((remainder.toNat.toUInt8 + 48) :: digits)

/-- `RtIntToString`: decimal digits with a sign; 20 of them are enough for 64 bits. -/
def rtIntToString (inputValue : BitVec 64) : RtString :=
  if inputValue = 0 then ascii "0"
  else if inputValue.msb then ascii "-" ++ rtDigits 20 (-(inputValue + 1) + 1) []
  else rtDigits 20 inputValue []

/-- The second loop of `RtFilterGeneric`: nested generic arguments become `...`. -/
def filterGenericFrom : Nat → RtString → RtString
  | depth, [] => []
  | 0, ch :: rest => ch :: filterGenericFrom (if ch = 60 then 1 else 0) rest
  | depth + 1, ch :: rest =>
    if ch = 60 then filterGenericFrom (depth + 2) rest
    else if ch = 62 then
      if depth = 0 then ascii "...>" ++ filterGenericFrom 0 rest else filterGenericFrom depth rest
    else filterGenericFrom (depth + 1) rest

/-- `RtFilterGeneric`: what is inside of angle brackets becomes dots. -/
def rtFilterGeneric (inputValue : RtString) : RtString := filterGenericFrom 0 inputValue

/-- `ReplaceString`: an occurrence at the very end stays, and so does what is before it then.  Each
    round takes an occurrence away, so that the length is enough fuel. -/
def replaceFrom (pattern replacement : RtString) : Nat → RtString → RtString
  | 0, out => out
  | fuel + 1, out =>
    match out.find pattern 0 with
    | none => out
    | some pos =>
      if out.length - pos - pattern.length ≤ 0 then out
      else replaceFrom pattern replacement fuel (out.subStr 0 pos ++ replacement ++
        out.subStr (pos + pattern.length) (out.length - pos - pattern.length))

/-- `ReplaceString`: all occurrences, from left to right. -/
def replaceString (str pattern replacement : RtString) : RtString :=
  if str.isEmpty then str else replaceFrom pattern replacement str.length str

/-! ## Texts with or without an arena -/

/-- An `RtString` with what its owner is: `arena` says that it is not null. -/
structure Text where
  bytes : RtString
  arena : Bool
  deriving DecidableEq, Repr

/-- `RtLit`: a literal has no arena. -/
abbrev rtLit (bytes : RtString) : Text := ⟨bytes, false⟩

/-- `RtConcat`.  An empty side leaves the other one, with the arena of either (`RtPickArena`); two
    texts without an arena have nowhere to be put. -/
def rtConcat (left right : Text) : Text :=
  let arena := left.arena || right.arena
  if left.bytes.isEmpty then ⟨right.bytes, arena⟩
  else if right.bytes.isEmpty then ⟨left.bytes, arena⟩
  else if arena then ⟨left.bytes ++ right.bytes, true⟩
  else ⟨[], false⟩

/-- A text in the arena takes what comes behind it. -/
@[simp] theorem rtConcat_left (bytes : RtString) (right : Text) :
    rtConcat ⟨bytes, true⟩ right = ⟨bytes ++ right.bytes, true⟩ := by
  rw [rtConcat]
  split
  case isTrue h =>
    obtain rfl : bytes = [] := List.isEmpty_iff.mp h
    rfl
  case isFalse =>
    split
    case isTrue h => rw [List.isEmpty_iff.mp h, Bool.true_or, List.append_nil]
    case isFalse => rfl

/-- A text in the arena takes what comes before it. -/
@[simp] theorem rtConcat_right (left : Text) (bytes : RtString) :
    rtConcat left ⟨bytes, true⟩ = ⟨left.bytes ++ bytes, true⟩ := by
  rw [rtConcat, Bool.or_true]
  split
  case isTrue h => rw [List.isEmpty_iff.mp h, List.nil_append]
  case isFalse =>
    split
    case isTrue h =>
      obtain rfl : bytes = [] := List.isEmpty_iff.mp h
      rw [List.append_nil]
    case isFalse => rfl

/-- Two texts without an arena are lost. -/
theorem rtConcat_lost {left right : RtString} (hleft : left ≠ []) (hright : right ≠ []) :
    rtConcat (rtLit left) (rtLit right) = rtLit [] := by
  rw [rtConcat, if_neg (by simpa using hleft), if_neg (by simpa using hright)]
  rfl

/-- An empty literal changes nothing. -/
theorem rtConcat_nil (left : Text) : rtConcat left (rtLit []) = left := by
  rw [rtConcat, Bool.or_false]
  split
  case isTrue h =>
    obtain ⟨bytes, arena⟩ := left
    obtain rfl : bytes = [] := List.isEmpty_iff.mp h
    rfl
  case isFalse => rfl

/-- No concatenation is longer than its two sides. -/
theorem rtConcat_length_le (left right : Text) :
    (rtConcat left right).bytes.length ≤ left.bytes.length + right.bytes.length := by
  rw [rtConcat]
  split
  · exact Nat.le_add_left _ _
  · split
    · exact Nat.le_add_right _ _
    · split
      · exact Nat.le_of_eq List.length_append
      · exact Nat.zero_le _

/-! ## Slots -/

/-- `RT_STRING_SLOT_COUNT`, `MAX_ARGS_SIZE`. -/
abbrev MAX_ARGS_SIZE : Nat := 16

/-- The slots of `RtStringSlots`. -/
abbrev Slots := Nat → Text

/-- `RtStringSlots`: empty texts of the arena. -/
def rtStringSlots : Slots := fun _ => ⟨[], true⟩

/-- `RtStringSlotGet`: the text in a slot, empty outside of the sixteen. -/
def rtStringSlotGet (slots : Slots) (index : Nat) : Text :=
  if index ≥ MAX_ARGS_SIZE then rtLit [] else slots index

/-- `RtStringSlotSet`: without effect outside of the sixteen. -/
def rtStringSlotSet (slots : Slots) (index : Nat) (inputValue : Text) : Slots :=
  if index ≥ MAX_ARGS_SIZE then slots else Function.update slots index inputValue

/-- What holds of the texts in the slots and of a new text holds of the slots after it was put
    there. -/
theorem rtStringSlotGet_set {p : Text → Prop} {slots : Slots} {index : Nat} {inputValue : Text}
    (h : ∀ k < 16, p (rtStringSlotGet slots k)) (hvalue : p inputValue) :
    ∀ k < 16, p (rtStringSlotGet (rtStringSlotSet slots index inputValue) k) := by
  intro k hk
  have hslot := h k hk
  rw [rtStringSlotGet, if_neg (Nat.not_le.mpr hk)] at hslot ⊢
  rw [rtStringSlotSet]
  split
  case isTrue => exact hslot
  case isFalse =>
    by_cases hsame : k = index
    · rw [hsame, Function.update_self]
      exact hvalue
    · rw [Function.update_of_ne hsame]
      exact hslot

/-- `GetArgTypesFullName`; the delimiter is a literal. -/
def getArgTypesFullName (args : Slots) (argSize : Nat) (delimiter : RtString) : Text :=
  if argSize = 0 then rtLit []
  else (List.range' 1 (argSize - 1)).foldl
    (fun argTypesFullName i =>
      rtConcat argTypesFullName (rtConcat (rtLit delimiter) (rtStringSlotGet args i)))
    (rtStringSlotGet args 0)

/-- The flush of all slots, each with a delimiter after it. -/
def flushSlots (args : Slots) (delimiter : RtString) (result : Text) : Text :=
  (List.range MAX_ARGS_SIZE).foldl
    (fun result flushIndex =>
      rtConcat result (rtConcat (rtStringSlotGet args flushIndex) (rtLit delimiter))) result

example : rtIntToString 65536 = ascii "65536" ∧ rtIntToString (-1) = ascii "-1" := by
  decide +kernel

example : rtFilterGeneric (ascii "Map<Int64,Set<Int8>>") = ascii "Map<...>" := by decide +kernel

end CangjieRuntime.Demangle
