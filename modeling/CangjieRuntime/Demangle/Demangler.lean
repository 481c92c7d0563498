/-
  The demangler (`Demangler.cj`).

  The parser is a set of mutually recursive functions on the fields of `Demangler`.  Each function
  here has its recursive calls of `DemangleNextUnit` as a parameter `next`, and the loops have the
  fuel `fuel`; `demangleNextUnit` closes the recursion.  `ErrorLog` does nothing, and so the texts
  of the errors are left out.  The field `trace` is not in the code: it keeps what a run did, newest
  first, so that a statement can be about all states of a run.
-/
import CangjieRuntime.Demangle.DemangleInfo
import CangjieRuntime.Lib.Computation

set_option linter.unusedVariables false

namespace CangjieRuntime.Demangle

open CangjieRuntime.Computation

/-! ## State -/

/-- What a run did. -/
inductive Event
  /-- The fields were set. -/
  | state (size currentIndex : Nat) (isValid : Bool)
  /-- `Reject` was executed. -/
  | rejected
  /-- `DemangleNextUnit` was called at the first index and returned at the second. -/
  | unit (start stop : Nat) (isValid : Bool)
  deriving DecidableEq, Repr

/-- `Demangler`: whether the name is still valid, the cursor, the mangled name, the delimiter of
    scopes, and the result of a rejected name. -/
structure Demangler where
  isValid : Bool
  currentIndex : Nat
  mangledName : RtString
  scopeResolution : RtString
  dumpDi : DemangleInfo
  trace : List Event
  deriving Repr

abbrev Dem := Comp Demangler

/-- `Demangler.init`: the cursor is at the start of the name, behind an underscore that is to be
    stripped. -/
def Demangler.init (mangled : RtString) (stripUnderscore : Bool) (scopeRes : RtString) :
    Demangler :=
  let mangledName :=
    if stripUnderscore ∧ ¬ mangled.isEmpty ∧ mangled.byte 0 = 95 then
      mangled.subStr 1 (mangled.length - 1)
    else mangled
  ⟨true, 0, mangledName, scopeRes, { demangled := mangledName, type := .name, isValid := false }, []⟩

namespace Demangler

/-- The state after a field was set. -/
def record (d : Demangler) : Demangler :=
  { d with trace := .state d.mangledName.length d.currentIndex d.isValid :: d.trace }

/-- The byte at the cursor. -/
def current (d : Demangler) : UInt8 := d.mangledName.byte d.currentIndex

/-- `currentIndex >= mangledName.size`. -/
def atEnd (d : Demangler) : Bool := d.currentIndex ≥ d.mangledName.length

/-- `PeekChar`: the byte at the cursor, 0 at the end. -/
def peekChar (d : Demangler) : UInt8 := if d.atEnd then 0 else d.current

/-- `MatchForward`, with the length of the pattern. -/
def matchForward (d : Demangler) (pattern : RtString) : Bool :=
  if d.atEnd then pattern.length = 0
  else
    let maxLen := d.mangledName.length - d.currentIndex
    let realLen := if pattern.length > maxLen then maxLen else pattern.length
    d.mangledName.subStr d.currentIndex realLen == pattern

/-- `IsProp`: the mark of a setter or a getter is ahead. -/
def isProp (d : Demangler) : Bool :=
  if d.currentIndex + 1 < d.mangledName.length then
    let str := d.mangledName.subStr d.currentIndex 2
    str == ascii "ps" || str == ascii "pg"
  else false

/-- `IsOperatorName`: the code of an operator is ahead, and behind it what can follow on one. -/
def isOperatorName (d : Demangler) : Bool :=
  let id := d.currentIndex + 2
  id < d.mangledName.length ∧ getOperatorNameMap (d.mangledName.subStr d.currentIndex 2) ≠ [] ∧
    (d.mangledName.byte id = 73 ∨ d.mangledName.byte id = 72 ∨ d.mangledName.byte id = 75)

/-- `IsMaybeDefaultFuncParamFunction`: a `$` is ahead. -/
def isMaybeDefaultFuncParamFunction (d : Demangler) : Bool := ¬ d.atEnd ∧ d.current = 36

/-- `IsNotEndOfMangledName`: there is a byte ahead, and it is not the `E` that ends a list. -/
def isNotEndOfMangledName (d : Demangler) : Bool := ¬ d.atEnd ∧ d.current ≠ 69

/-- `IsFileName`: the `U` in front of the number of a file is ahead. -/
def isFileName (d : Demangler) : Bool := d.peekChar = 85

/-- `IsQualifiedType`: a type begins at the cursor, as its first one or two bytes tell. -/
def isQualifiedType (d : Demangler) : Bool :=
  if d.atEnd then false
  else if d.currentIndex + 1 < d.mangledName.length ∧
      ((d.current = 68 ∧ d.mangledName.byte (d.currentIndex + 1) = 104) ∨
        (d.current = 70 ∧ d.mangledName.byte (d.currentIndex + 1) = 48) ∨
        (d.current = 70 ∧ d.mangledName.byte (d.currentIndex + 1) = 67)) then true
  else if isPrimitive d.current then true
  else d.current ∈ ascii "CRFNTPAkVG"

end Demangler

/-- Sets `currentIndex`. -/
def setIndex (index : Nat) : Dem Unit := modify fun d => { d with currentIndex := index }.record

/-- `currentIndex += n`. -/
def advance (n : Nat) : Dem Unit := do setIndex ((← get).currentIndex + n)

/-- Sets `isValid`. -/
def setValid (isValid : Bool) : Dem Unit := modify fun d => { d with isValid := isValid }.record

/-- `Reject`: the name is invalid and the cursor at its end; the result is `dumpDi`, which shows the
    mangled name. -/
def reject : Dem DemangleInfo := do
  let d ← get
  if ¬ (d.currentIndex = d.mangledName.length ∧ ¬ d.isValid) then
    setValid false
    setIndex d.mangledName.length
  modify fun d => { d with trace := .rejected :: d.trace }
  return d.dumpDi

/-! ## Lexical functions -/

/-- The value of a length, 0 if it has more than 32 bits. -/
def lengthValue (numStr : RtString) : Nat :=
  (numStr.foldlM (fun num ch =>
    let num := num * 10 + (ch.toNat - 48)
    if num > 4294967295 then none else some num) 0).getD 0

/-- `DemangleLength`: the digits at the cursor as a number; a leading 0 is a number of its own. -/
def demangleLength : Dem Nat := do
  let d ← get
  if d.atEnd then
    let _ ← reject
    return 0
  else if d.current = 48 then
    advance 1
    return 0
  else
    let numStr := (d.mangledName.drop d.currentIndex).takeWhile isCurrentCharDigit
    setValid false
    numStr.forM fun _ => do
      advance 1
      setValid true
    if numStr.isEmpty then return 0
    else return lengthValue numStr

/-- `GetChar`: the byte at the cursor, which is passed, or 0 at the end. -/
def getChar : Dem UInt8 := do
  let ch := (← get).peekChar
  if ch ≠ 0 then
    advance 1
    return ch
  else return 0

/-- `SkipChar`: a byte that has to be at the cursor is passed, and any other one rejects the
    name. -/
def skipChar (ch : UInt8) : Dem Unit := do
  let d ← get
  if d.atEnd then
    let _ ← reject
  else if d.current ≠ ch then
    let _ ← reject
  else advance 1

/-- `SkipOptionalChar`: a byte that may be at the cursor is passed. -/
def skipOptionalChar (ch : UInt8) : Dem Unit := do
  let d ← get
  if d.atEnd then return ()
  else if d.current = ch then advance 1
  else return ()

/-- `SkipString`: a text that has to be at the cursor is passed, up to its first difference. -/
def skipString : RtString → Dem Unit
  | [] => return ()
  | ch :: pattern => do
    skipChar ch
    if (← get).isValid then skipString pattern else return ()

/-- `DemangleStringName`: a name, as many bytes as the length in front of it says. -/
def demangleStringName : Dem RtString := do
  let identifyLength ← demangleLength
  let d ← get
  if identifyLength = 0 then
    let _ ← reject
    return []
  else if identifyLength > d.mangledName.length - d.currentIndex then
    let _ ← reject
    return []
  else
    advance identifyLength
    return d.mangledName.subStr d.currentIndex identifyLength

/-- `DemangleProp`: the mark of a setter or a getter, as the suffix it stands for. -/
def demangleProp : Dem RtString := do
  let d ← get
  advance 2
  return if d.mangledName.subStr d.currentIndex 2 == ascii "ps" then ascii "::set" else ascii "::get"

/-- `BASE62_CHARS`: the digits of a number by their values. -/
def BASE62_CHARS : RtString :=
  ascii "0123456789ABCDEFGHIJKLMNOPQRSTUVWXYZabcdefghijklmnopqrstuvwxyz"

/-- The value of base-62 digits, the lowest first, and the power of the next one. -/
def base62 (content : RtString) : Option (BitVec 64 × BitVec 64) :=
  content.foldlM (fun (value, power) ch =>
    (BASE62_CHARS.idxOf? ch).map fun i => (value + BitVec.ofNat 64 i * power, power * 62)) (0, 1)

/-- A round of the loop that reads a number up to `_`. -/
def manglingNumberStep (content : RtString) : Dem (RtString ⊕ Option RtString) := do
  let c ← getChar
  if c ≠ 0 then
    if c = 95 then return .inr (some content)
    else return .inl (content ++ [c])
  else
    let _ ← reject
    return .inr none

/-- `DemangleManglingNumber`: a number in base 62 up to its `_`. One is added, as the empty number
    is 0. -/
def demangleManglingNumber (fuel : Nat) : Dem (BitVec 64) := do
  match ← iterate manglingNumberStep fuel [] with
  | none => return 0
  | some [] => return 0
  | some content =>
    match base62 content.reverse with
    | none =>
      let _ ← reject
      return 0
    | some (value, _) => return value + 1

/-- A round of the loop of `DemangleFileNameNumber`, one character; `none` ends it without a
    check. -/
def fileNameNumberStep (content : RtString) : Dem (RtString ⊕ Option RtString) := do
  if content.length = 13 then return .inr (some content)
  else
    let c ← getChar
    if c ≠ 0 then
      if c = 36 then return .inr none
      else return .inl (content ++ [c])
    else
      let _ ← reject
      return .inr none

/-- `DemangleFileNameNumber`: 13 characters, or what is there up to a `$`; nothing of it is
    shown. -/
def demangleFileNameNumber (fuel : Nat) : Dem Unit := do
  match ← iterate fileNameNumberStep fuel [] with
  | none => return ()
  | some content =>
    if content.all fun ch => ch ∈ BASE62_CHARS then return ()
    else let _ ← reject

/-- `DemangleFileName`: a `U` and the number of the file. -/
def demangleFileName (fuel : Nat) : Dem Unit := do
  skipChar 85
  demangleFileNameNumber fuel

/-- `SkipLocalCounter`: a `K` and the number that tells apart local names, if there is one. -/
def skipLocalCounter (fuel : Nat) : Dem Unit := do
  if (← get).peekChar ≠ 75 then return ()
  else
    skipChar 75
    let _ ← demangleManglingNumber fuel

/-- The name of a package that is not a standard one: of `a:b` it is `a::b`. -/
def packageString (pkg : RtString) : RtString :=
  match pkg.find (ascii ":") 0 with
  | none => pkg
  | some pos =>
    if pkg.length - pos > 1 then
      pkg.subStr 0 pos ++ ascii ":" ++ pkg.subStr pos (pkg.length - pos)
    else pkg

/-- `DemanglePackageName`, after the standard packages. -/
def demanglePackageRest (fuel : Nat) (pkg : RtString) : Dem DemangleInfo := do
  if (← get).current = 48 then
    advance 1
    return { type := .commonDecl }
  else
    let pkg ← (if pkg.isEmpty then return packageString (← demangleStringName) else return pkg)
    let isPrivateDeclaration := (← get).isFileName
    if isPrivateDeclaration then demangleFileName fuel
    return {
      type := .commonDecl
      isPrivateDeclaration := isPrivateDeclaration
      pkgName := replaceString pkg (ascii "$") (ascii "/")
      pkgArena := true }

/-- `DemanglePackageName`: a standard package by its code, another one by its name, or `0` for
    none. -/
def demanglePackageName (fuel : Nat) : Dem DemangleInfo := do
  let d ← get
  if d.atEnd then
    let _ ← reject
    return { type := .commonDecl }
  else
    let stdPkg :=
      if d.currentIndex + 2 ≤ d.mangledName.length then
        mangleStdpkgMap (d.mangledName.subStr d.currentIndex 2)
      else []
    if ¬ stdPkg.isEmpty then
      advance 2
      demanglePackageRest fuel stdPkg
    else if ¬ isCurrentCharDigit d.current then
      let _ ← reject
      return { type := .commonDecl }
    else demanglePackageRest fuel []

end CangjieRuntime.Demangle
