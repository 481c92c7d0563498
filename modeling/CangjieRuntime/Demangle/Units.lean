/-
  The units of a mangled name (`Demangler.cj`, from `DemangleArgTypes` on).

  `demangleNextUnit fuel` is the parser with recursive calls up to that depth; the functions before
  it take it as `next`.
-/
import CangjieRuntime.Demangle.Demangler

set_option linter.unusedVariables false

namespace CangjieRuntime.Demangle

open CangjieRuntime.Computation

/-! ## Lists of names -/

/-- The variables of the loops that buffer names in slots. -/
structure Batch where
  i : Nat
  result : Text
  argsArr : Slots

/-- The variables at the start of the loops; the empty result is one of the arena. -/
def Batch.start : Batch := ⟨0, ⟨[], true⟩, rtStringSlots⟩

/-- A name is put into its slot. -/
def Batch.push (b : Batch) (name : Text) : Batch :=
  { b with i := b.i + 1, argsArr := rtStringSlotSet b.argsArr (b.i % 16) name }

/-- `result.SubStr(0, result.size - delimiter.size)`. -/
def Text.dropLast (result : Text) (delimiter : RtString) : Text :=
  ⟨result.bytes.subStr 0 (result.bytes.length - delimiter.length), result.arena⟩

/-- `remainingLength`. -/
def Batch.remainingLength (b : Batch) : Nat := (b.i - 1) % 16 + 1

section Units

variable (fuel : Nat) (next : Dem DemangleInfo)

/-- A round of the loop of `DemangleArgTypes`.  A full batch is moved to the result first, with a
    delimiter after each name; the second component is `hasTrailingDelimiter`. -/
def argTypesStep (delimiter : RtString) (v : Batch × Bool) :
    Dem (Batch × Bool ⊕ Option (Batch × Bool)) := do
  if ¬ ((← get).isNotEndOfMangledName ∧ v.1.i < 4294967295) then return .inr (some v)
  else
    if (← get).current = 95 then skipChar 95
    if (← get).isMaybeDefaultFuncParamFunction then return .inr (some v)
    else
      let curDi ← next
      let d ← get
      if ¬ d.isValid then return .inr none
      else
        -- every unit's text has the arena
        let name : Text := ⟨curDi.getFullName d.scopeResolution, true⟩
        if v.1.i % 16 = 0 ∧ v.1.i ≠ 0 then
          let b : Batch := ⟨v.1.i, flushSlots v.1.argsArr delimiter v.1.result, rtStringSlots⟩
          return .inl (b.push name, true)
        else return .inl (v.1.push name, v.2)

/-- `DemangleArgTypes`: the types up to the end of the list, joined with the delimiter. A `v` that
    ends the name stands for none. -/
def demangleArgTypes (delimiter : RtString) : Dem RtString := do
  let d ← get
  if d.currentIndex + 1 = d.mangledName.length ∧ d.current = 118 then
    skipChar 118
    return []
  else
    match ← iterate (argTypesStep next delimiter) fuel (Batch.start, false) with
    | none => return []
    | some (b, hasTrailingDelimiter) =>
      if b.i = 0 then return b.result.bytes
      else
        let result :=
          if b.remainingLength = 0 ∧ hasTrailingDelimiter then b.result.dropLast delimiter
          else b.result
        return (rtConcat result (getArgTypesFullName b.argsArr b.remainingLength delimiter)).bytes

/-- A round of the loop of `DemangleGenericTypes`, one type; the second component tells that it is
    the first one. -/
def genericTypesStep (v : RtString × Bool) : Dem (RtString × Bool ⊕ RtString) := do
  let d ← get
  if ¬ (d.isNotEndOfMangledName ∧ ¬ isCurrentCharDigit d.current ∧ d.current ≠ 72 ∧
      ¬ d.isOperatorName) then return .inr v.1
  else
    let curDi ← next
    let d ← get
    if ¬ d.isValid then return .inr v.1
    else
      let argTypesFullName := if v.2 then v.1 else v.1 ++ ascii ","
      return .inl (argTypesFullName ++ curDi.getFullName d.scopeResolution, false)

/-- `DemangleGenericTypes`: the types up to the end of the list, a digit, an `H` or an operator,
    joined with commas. -/
def demangleGenericTypes : Dem DemangleInfo := do
  let argTypesFullName ← iterate (genericTypesStep next) fuel ([], true)
  return { type := .genericTypes, args := argTypesFullName }

/-- A round of the loop of `DemangleFunctionParameterTypes`, one type. -/
def functionParameterTypesStep (v : RtString × Bool) : Dem (RtString × Bool ⊕ RtString) := do
  let d ← get
  if ¬ (d.isNotEndOfMangledName ∧ ¬ isCurrentCharDigit d.current) then return .inr v.1
  else
    let curDi ← next
    let d ← get
    if ¬ d.isValid then return .inr v.1
    else
      let argTypesFullName := if v.2 then v.1 else v.1 ++ ascii ", "
      return .inl (argTypesFullName ++ curDi.getFullName d.scopeResolution, false)

/-- `DemangleFunctionParameterTypes`: the parameters behind an `H`; a `v` stands for none. -/
def demangleFunctionParameterTypes : Dem DemangleInfo := do
  let d ← get
  if d.isNotEndOfMangledName ∧ d.current = 118 then
    advance 1
    return { type := .functionParameterTypes }
  else
    let argTypesFullName ← iterate (functionParameterTypesStep next) fuel ([], true)
    return { type := .functionParameterTypes, args := argTypesFullName }

/-! ## Nested declarations -/

/-- The variables of `DemangleNestedDecls`: the names so far, the kind of the last one, and its
    pieces. -/
structure Nested where
  batch : Batch
  typeKind : DemanglerTypeKind
  lastElement : DemangleInfo

/-- The name of a component, before its suffixes.  An operator's is a literal, and unlike in
    `DemangleByPrefix` it is not given the arena of the mangled name. -/
def nestedName : Dem DemangleInfo := do
  let d ← get
  if d.isOperatorName then
    advance 2
    return {
      type := .name
      demangled := getOperatorNameMap (d.mangledName.subStr d.currentIndex 2)
      ownerArena := false
      isValid := d.isValid }
  else
    let name ← demangleStringName
    let d ← get
    let demangled ← (if d.isProp then return name ++ (← demangleProp) else return name)
    return { type := .name, demangled := demangled, isValid := d.isValid }

/-- The generic suffix of a component; its text has the arena. -/
def nestedGeneric (isClass : Bool) (curDi : DemangleInfo) : Dem DemangleInfo := do
  let d ← get
  if d.current = 73 then
    skipChar 73
    let generic := (← demangleGenericTypes fuel next).getFullName d.scopeResolution
    if ¬ isClass then skipOptionalChar 69
    return { curDi with genericTypes := rtFilterGeneric generic, ownerArena := true }
  else return curDi

/-- The parameter suffix of a component, and its kind; also no parameters have the arena. -/
def nestedFunction (curDi : DemangleInfo) : Dem (DemangleInfo × DemanglerTypeKind) := do
  if (← get).peekChar = 72 then
    skipChar 72
    let funcTys := (← demangleFunctionParameterTypes fuel next).args
    skipOptionalChar 69
    return ({ curDi with functionParameterTypes := funcTys, ownerArena := true }, .functionDecl)
  else return (curDi, .commonDecl)

/-- A full batch is moved to the result, without the delimiter after its last name. -/
def Batch.flush (b : Batch) (delimiter : RtString) : Batch :=
  if b.i % 16 = 0 ∧ b.i ≠ 0 then
    { b with result := (flushSlots b.argsArr delimiter b.result).dropLast delimiter }
  else b

/-- A round of the loop of `DemangleNestedDecls`.  The loop ends with `Reject` (`.error`), or with
    its variables. -/
def nestedStep (isClass isParamInit : Bool) (v : Nested) :
    Dem (Nested ⊕ Except DemangleInfo Nested) := do
  let d ← get
  if ¬ d.isNotEndOfMangledName then return .inr (.ok v)
  else if d.current = 76 then
    advance 1
    let lambdaIDString := rtIntToString (← demangleManglingNumber fuel)
    return .inl ⟨v.batch.push (rtConcat (rtLit (ascii "lambda.")) ⟨lambdaIDString, true⟩),
      .lambdaFunction, v.lastElement⟩
  else if d.current = 88 then
    advance 1
    if ¬ (← get).isQualifiedType then return .inr (.error (← reject))
    else
      let curDi ← next
      let batch := v.batch.push ⟨curDi.getIdentifier, true⟩
      if (← get).isFileName then demangleFileName fuel
      skipLocalCounter fuel
      return .inl ⟨batch, .commonDecl, v.lastElement⟩
  else
    let curDi ← nestedName
    if (← get).atEnd then
      return .inr (.ok ⟨v.batch.push (curDi.getFullNameText d.scopeResolution), .commonDecl,
        v.lastElement⟩)
    else
      skipLocalCounter fuel
      if ¬ (← get).isValid then return .inr (.error (← reject))
      else
        let curDi ← nestedGeneric fuel next isClass curDi
        let (curDi, typeKind) ← nestedFunction fuel next curDi
        let batch := v.batch.flush d.scopeResolution
        -- the delimiter of the batches is not put back between this name and the flushed ones
        if isParamInit ∧ (← get).isNotEndOfMangledName ∧ curDi.functionParameterTypes.length > 0 then
          -- there are parameters, and so the name has the arena
          return .inl ⟨batch.push ⟨curDi.getFullName d.scopeResolution ++ ascii "(" ++
            curDi.functionParameterTypes ++ ascii ")", true⟩, typeKind, curDi⟩
        else return .inl ⟨batch.push (curDi.getFullNameText d.scopeResolution), typeKind, curDi⟩

/-- `DemangleNestedDecls`: the components of a path up to an `E` or the end of the name, joined with
    the delimiter of scopes. -/
def demangleNestedDecls (isClass isParamInit : Bool) : Dem DemangleInfo := do
  match ← iterate (nestedStep fuel next isClass isParamInit) fuel
      ⟨Batch.start, .commonDecl, {}⟩ with
  | .error info => return info
  | .ok v =>
    let d ← get
    let remainingLength := if v.batch.i = 0 then 0 else v.batch.remainingLength
    return {
      type := v.typeKind
      demangled := (rtConcat v.batch.result
        (getArgTypesFullName v.batch.argsArr remainingLength d.scopeResolution)).bytes
      isValid := d.isValid
      functionParameterTypes := v.lastElement.functionParameterTypes }

/-! ## Units by their prefix -/

/-- The end of `DemangleCommonDecl` and of `DemangleParamInit`: the package and the path, which must
    not be empty. -/
def nestedDecl (isClass isParamInit : Bool) : Dem DemangleInfo := do
  let pkgDi ← demanglePackageName fuel
  let nestedDi ← demangleNestedDecls fuel next isClass isParamInit
  if ¬ (← get).isValid ∨ nestedDi.demangled.isEmpty then reject
  else return {
    type := nestedDi.type
    pkgName := pkgDi.pkgName
    pkgArena := pkgDi.pkgArena
    isPrivateDeclaration := pkgDi.isPrivateDeclaration
    demangled := nestedDi.demangled
    args := if nestedDi.type = .functionDecl then nestedDi.functionParameterTypes else nestedDi.args }

/-- `DemangleCommonDecl`: a declaration behind its `N`, or a global variable behind its `GV`. -/
def demangleCommonDecl (isClass : Bool) : Dem DemangleInfo := do
  let isGlobalVariableInitPrefix := (← get).current ≠ 78
  if isGlobalVariableInitPrefix then skipString (ascii "GV") else skipString (ascii "N")
  if ¬ (← get).isValid then reject
  else
    let di ← nestedDecl fuel next isClass false
    if isGlobalVariableInitPrefix ∧ (← get).isValid then return { di with type := .commonDecl }
    else return di

/-- `DemangleClass`: a declaration as a type of the given kind, with the `E` that ends it. -/
def demangleClass (typeKind : DemanglerTypeKind) : Dem DemangleInfo := do
  advance 1
  let di ← demangleCommonDecl fuel next true
  if (← get).peekChar = 69 then skipChar 69
  return { di with type := typeKind }

/-- `DemangleFunction` and `DemangleCFuncType`, by their prefix: the result, the parameters and the
    `E`. -/
def demangleFunctionType (pattern : RtString) : Dem DemangleInfo := do
  skipString pattern
  let di ← next
  let scopeResolution := (← get).scopeResolution
  let args ← demangleArgTypes fuel next (ascii ", ")
  skipChar 69
  return { type := .function, demangled := di.getFullName scopeResolution, args := args }

/-- `DemangleFunction`: the type of a function of Cangjie. -/
def demangleFunction : Dem DemangleInfo := demangleFunctionType fuel next (ascii "F0")

/-- `DemangleCFuncType`: the type of a function of C. -/
def demangleCFuncType : Dem DemangleInfo := demangleFunctionType fuel next (ascii "FC")

/-- `DemangleTuple`: the number of its types, which is not used, the types and the `E`. -/
def demangleTuple : Dem DemangleInfo := do
  skipChar 84
  let _ ← demangleManglingNumber fuel
  let generic := (← demangleGenericTypes fuel next).getFullName (← get).scopeResolution
  skipChar 69
  return { type := .tuple, demangled := ascii "Tuple", genericTypes := rtFilterGeneric generic }

/-- `DemangleRawArray`: the number of dimensions, a pair of brackets for each, and the type of the
    elements. -/
def demangleRawArray : Dem DemangleInfo := do
  skipChar 65
  let dim ← demangleManglingNumber fuel
  let args := (← next).getFullName (← get).scopeResolution
  return {
    type := .rawArray
    demangled := ascii "RawArray"
    genericConstraints := (List.replicate dim.toInt.toNat (ascii "[]")).flatten
    args := args }

/-- `DemangleVArray`: the length and the type of the elements. The types are read as a list, and no
    `E` is asked for. -/
def demangleVArray : Dem DemangleInfo := do
  skipChar 86
  let num ← demangleManglingNumber fuel
  let generic := (← demangleGenericTypes fuel next).getFullNameOf (← get).scopeResolution num
  return { type := .tuple, demangled := ascii "VArray", genericTypes := generic }

/-- `DemangleType`: one type as a list of generic arguments; without one the name is invalid, but
    not rejected. -/
def demangleType : Dem DemangleInfo := do
  if (← get).isQualifiedType then
    let curDi ← next
    let d ← get
    if d.isValid then
      return { type := .genericTypes, args := curDi.getFullName d.scopeResolution }
    else
      setValid false
      return { type := .genericTypes }
  else
    setValid false
    return { type := .genericTypes }

/-- `DemangleCPointer`: the type that the pointer points to. -/
def demangleCPointer : Dem DemangleInfo := do
  skipChar 80
  let generic := (← demangleType next).getFullName (← get).scopeResolution
  return {
    type := .cpointer, demangled := ascii "CPointer", genericTypes := rtFilterGeneric generic }

/-- `DemanglePrimitive`: a letter, or the two of `Float16`, which has the name of its first
    letter. -/
def demanglePrimitive : Dem DemangleInfo := do
  let d ← get
  if d.atEnd then reject
  else
    if d.matchForward (ascii "Dh") then skipString (ascii "Dh") else skipChar d.current
    return { type := .primitive, demangled := getPrimitiveDemangleMap d.current }

/-- `DemangleCStringType`: the letter `k`. -/
def demangleCStringType : Dem DemangleInfo := do
  skipChar 107
  return { type := .cstring, demangled := ascii "CString", isValid := (← get).isValid }

/-- `DemangleGenericType`: a parameter of a generic declaration, shown as `T` and its number. -/
def demangleGenericType : Dem DemangleInfo := do
  skipChar 71
  let gNumber ← demangleManglingNumber fuel
  return {
    type := .genericTypes
    demangled := ascii "T" ++ rtIntToString gNumber
    isValid := (← get).isValid }

/-- `DemangleByPrefix`: the first byte selects what is read, and one that nothing begins with
    rejects the name. -/
def demangleByPrefix : Dem DemangleInfo := do
  let d ← get
  if d.atEnd then reject
  else match Char.ofNat d.current.toNat with
    | 'C' => demangleClass fuel next .classType
    | 'R' => demangleClass fuel next .struct
    | 'F' =>
      if d.currentIndex + 1 < d.mangledName.length ∧
          d.mangledName.byte (d.currentIndex + 1) = 48 then demangleFunction fuel next
      else if d.currentIndex + 1 < d.mangledName.length ∧
          d.mangledName.byte (d.currentIndex + 1) = 67 then demangleCFuncType fuel next
      else reject
    | 'N' => demangleClass fuel next .enum
    | 'T' => demangleTuple fuel next
    | 'P' => demangleCPointer next
    | '_' => reject
    | 'A' => demangleRawArray fuel next
    | 'V' => demangleVArray fuel next
    | 'k' => demangleCStringType
    | 'G' => demangleGenericType fuel
    | _ =>
      if isCurrentCharDigit d.current then
        let name ← demangleStringName
        return { type := .name, demangled := name, isValid := (← get).isValid }
      else if isPrimitive d.current then demanglePrimitive
      else if d.isOperatorName then
        advance 2
        return {
          type := .name
          demangled := getOperatorNameMap (d.mangledName.subStr d.currentIndex 2)
          isValid := d.isValid }
      else reject

end Units

/-- The end of `DemangleNextUnit`, for the index at its start: an invalid unit is rejected. -/
def finishUnit (start : Nat) (di : DemangleInfo) : Dem DemangleInfo := do
  let di ← (if ¬ (← get).isValid then reject else return di)
  modify fun d => { d with trace := .unit start d.currentIndex d.isValid :: d.trace }
  return di

/-- `DemangleNextUnit`: one unit, with the units inside of it on less fuel. -/
def demangleNextUnit : Nat → Dem DemangleInfo
  | 0 => fun _ => none
  | fuel + 1 => do
    let start := (← get).currentIndex
    finishUnit start (← demangleByPrefix (fuel + 1) (demangleNextUnit fuel))

end CangjieRuntime.Demangle
