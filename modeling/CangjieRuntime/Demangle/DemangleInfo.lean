/-
  Names of the demangler (`DemangleInfo`, and the maps at the head of `Demangler.cj`).

  A `DemangleInfo` is what one unit of a mangled name stands for, and `getFullName` is its text.  Its
  strings are in the arena of the mangled name, but for the name of an operator in a path and for a
  package that is not there; two flags tell (`ownerArena`, `pkgArena`).
-/
import CangjieRuntime.Demangle.RawString

set_option linter.unusedVariables false

namespace CangjieRuntime.Demangle

/-- `DemanglerTypeKind`: what a `DemangleInfo` describes, and with it how `GetFullName` puts its
    pieces together. -/
inductive DemanglerTypeKind
  | name | primitive | cstring | classType | struct | interface | enum | rawArray | varray | tuple
  | cpointer | function | commonDecl | functionDecl | functionParameterTypes | lambdaFunction
  | genericTypes | genericConstraints | wrappedFunction
  deriving DecidableEq, Repr

/-- `DemangleInfo`: the pieces of a name, each empty until a parser sets it. -/
structure DemangleInfo where
  type : DemanglerTypeKind := .name
  pkgName : RtString := []
  /-- `pkgName` has an arena; the literal it starts with has none. -/
  pkgArena : Bool := false
  /-- `OwnerArena` finds an arena, that of `demangled` or else of another piece. -/
  ownerArena : Bool := true
  args : RtString := []
  genericConstraints : RtString := []
  genericTypes : RtString := []
  functionParameterTypes : RtString := []
  demangled : RtString := []
  isPrivateDeclaration : Bool := false
  isValid : Bool := true
  deriving DecidableEq, Repr

/-! ## Maps -/

/-- `GetPrimitiveDemangleMap`: the name of the primitive type with this letter, empty for the other
    letters. -/
def getPrimitiveDemangleMap (t : UInt8) : RtString :=
  match Char.ofNat t.toNat with
  | 'u' => ascii "Unit"
  | 'n' => ascii "Nothing"
  | 'b' => ascii "Bool"
  | 'D' => ascii "Float16"
  | 'f' => ascii "Float32"
  | 'd' => ascii "Float64"
  | 'c' => ascii "Rune"
  | 'a' => ascii "Int8"
  | 's' => ascii "Int16"
  | 'i' => ascii "Int32"
  | 'l' => ascii "Int64"
  | 'h' => ascii "UInt8"
  | 't' => ascii "UInt16"
  | 'j' => ascii "UInt32"
  | 'm' => ascii "UInt64"
  | 'q' => ascii "IntNative"
  | 'r' => ascii "UIntNative"
  | _ => []

/-- `GetOperatorNameMap`: the sign of the operator with this code of two letters, empty for the
    other codes. -/
def getOperatorNameMap (replaced : RtString) : RtString :=
  let r0 := replaced.byte 0
  let r1 := replaced.byte 1
  if ¬ ((r0 ≥ 97 ∧ r0 ≤ 122) ∧ (r1 ≥ 97 ∧ r1 ≤ 122)) then []
  else match (r0.toNat - 97) * 32 + r1.toNat - 97 with
    | 279 => ascii "[]"
    | 435 => ascii "!"
    | 422 => ascii "-"
    | 502 => ascii "**"
    | 395 => ascii "*"
    | 117 => ascii "/"
    | 556 => ascii "%"
    | 491 => ascii "+"
    | 370 => ascii "<<"
    | 562 => ascii ">>"
    | 371 => ascii "<"
    | 211 => ascii ">"
    | 356 => ascii "<="
    | 196 => ascii ">="
    | 144 => ascii "=="
    | 420 => ascii "!="
    | 13 => ascii "&"
    | 142 => ascii "^"
    | 465 => ascii "|"
    | 75 => ascii "()"
    | _ => []

/-- `MANGLE_STDPKG_MAP`: the name of the standard package with this code of two letters, empty for
    the other codes. -/
def mangleStdpkgMap (pkg : RtString) : RtString :=
  if pkg.length ≠ 2 then []
  else match (pkg.byte 0).toNat * 256 + (pkg.byte 1).toNat with
    | 24930 => ascii "std.sync"
    | 24931 => ascii "std.collection"
    | 24932 => ascii "std.deriving"
    | 24933 => ascii "std.database"
    | 24934 => ascii "std.net"
    | 24935 => ascii "std.chirad"
    | 24936 => ascii "std.io"
    | 24937 => ascii "std.convert"
    | 24938 => ascii "std.ffi"
    | 24939 => ascii "std.argopt"
    | 24940 => ascii "std.objectpool"
    | 24941 => ascii "std.reflect"
    | 24942 => ascii "std.fs"
    | 24943 => ascii "std.runtime"
    | 24944 => ascii "std.overflow"
    | 24945 => ascii "std.unittest"
    | 24946 => ascii "std.binary"
    | 24947 => ascii "std.unicode"
    | 24948 => ascii "std.core"
    | 24949 => ascii "std.console"
    | 24950 => ascii "std.random"
    | 24951 => ascii "std.sort"
    | 24952 => ascii "std.ast"
    | 24953 => ascii "std.env"
    | 25185 => ascii "std.process"
    | 25186 => ascii "std.time"
    | 25187 => ascii "std.regex"
    | 25188 => ascii "std.posix"
    | 25189 => ascii "std.crypto"
    | 25190 => ascii "std.ref"
    | 25191 => ascii "std.math"
    | 25192 => ascii "std.collection.concurrent"
    | 25193 => ascii "std.collection.concurrent.native"
    | 25194 => ascii "std.deriving.impl"
    | 25195 => ascii "std.deriving.builtins"
    | 25196 => ascii "std.deriving.api"
    | 25197 => ascii "std.deriving.resolve"
    | 25198 => ascii "std.database.sql"
    | 25199 => ascii "std.net.native"
    | 25201 => ascii "std.convert.native"
    | 25203 => ascii "std.objectpool.native"
    | 25204 => ascii "std.fs.native"
    | 25205 => ascii "std.runtime.native"
    | 25206 => ascii "std.unittest.mock"
    | 25207 => ascii "std.unittest.testmacro"
    | 25208 => ascii "std.unittest.prop_test"
    | 25209 => ascii "std.unittest.common"
    | 25441 => ascii "std.unittest.native"
    | 25442 => ascii "std.unittest.diff"
    | 25443 => ascii "std.unittest.mock.mockmacro"
    | 25444 => ascii "std.unittest.mock.internal"
    | 25445 => ascii "std.core.native"
    | 25446 => ascii "std.random.native"
    | 25447 => ascii "std.ast.native"
    | 25448 => ascii "std.env.native"
    | 25449 => ascii "std.process.native"
    | 25450 => ascii "std.time.native"
    | 25451 => ascii "std.regex.native"
    | 25452 => ascii "std.posix.native"
    | 25453 => ascii "std.crypto.digest"
    | 25454 => ascii "std.crypto.cipher"
    | 25455 => ascii "std.math.numeric"
    | 25456 => ascii "std.math.native"
    | 25457 => ascii "std.math.numeric.native"
    | _ => []

/-- `IsPrimitive`: a letter that the map of primitive types knows. -/
def isPrimitive (ch : UInt8) : Bool := getPrimitiveDemangleMap ch ≠ []

/-- `IsCurrentCharDigit`, of the byte at the cursor. -/
def isCurrentCharDigit (ch : UInt8) : Bool := ch ≥ 48 ∧ ch ≤ 57

/-! ## Texts -/

namespace DemangleInfo

/-- `IsFunctionLike`: the kinds whose arguments are shown in parentheses. -/
def isFunctionLike (di : DemangleInfo) : Bool :=
  di.type = .functionDecl ∨ di.type = .lambdaFunction ∨ di.type = .function ∨
    di.type = .wrappedFunction

/-- `GetIdentifier`: the name without the angle brackets around it, if it has both. -/
def getIdentifier (di : DemangleInfo) : RtString :=
  if ¬ di.demangled.isEmpty ∧ di.demangled.byte 0 = 60 ∧ endsWith di.demangled (ascii ">") then
    di.demangled.subStr 1 (di.demangled.length - 2)
  else di.demangled

/-- `GetArgTypesName`: the arguments in parentheses, with the length of a VArray behind them if
    `argsNum` is not 0. -/
def getArgTypesName (di : DemangleInfo) (argsNum : BitVec 64) : RtString :=
  if di.args.isEmpty then
    if di.isFunctionLike then ascii "()" else []
  else if di.isFunctionLike then ascii "(" ++ di.args ++ ascii ")"
  else if argsNum ≠ 0 then
    ascii "<" ++ di.args ++ ascii ",$" ++ rtIntToString argsNum ++ ascii ">"
  else ascii "<" ++ di.args ++ ascii ">"

/-- `GetFunctionName` of a function type: its parameters, an arrow and its result. -/
def getFunctionName (di : DemangleInfo) : RtString :=
  di.getArgTypesName 0 ++ ascii " -> " ++ di.demangled

/-- `GetGenericConstraintsName`: a type and its bounds, joined by `&`. -/
def getGenericConstraintsName (di : DemangleInfo) : RtString :=
  ascii ", " ++ di.demangled ++ ascii " <: " ++ replaceString di.args (ascii ",") (ascii " &")

/-- `GetFullName(scopeRes, argsNum)`: the pieces put together by their kind. -/
def getFullNameOf (di : DemangleInfo) (scopeRes : RtString) (argsNum : BitVec 64) : RtString :=
  match di.type with
  | .function => di.getFunctionName
  | .genericConstraints => di.getGenericConstraintsName
  | _ =>
    let pkg := di.pkgName
    let identifier := di.getIdentifier
    let fullDemangledName :=
      if ¬ di.isFunctionLike ∧ di.type ≠ .commonDecl then
        if ¬ pkg.isEmpty ∧ ¬ identifier.isEmpty then pkg ++ scopeRes ++ identifier
        else pkg ++ identifier
      else identifier
    fullDemangledName ++ di.genericTypes ++ di.getArgTypesName argsNum ++ di.genericConstraints

/-- `GetFullName(scopeRes)`, which all but VArrays use. -/
def getFullName (di : DemangleInfo) (scopeRes : RtString) : RtString := di.getFullNameOf scopeRes 0

/-- `GetFullName(scopeRes)` with its arena: the text is built from an empty one of `OwnerArena`, and
    without that there is but one piece to put into it. -/
def getFullNameText (di : DemangleInfo) (scopeRes : RtString) : Text :=
  ⟨di.getFullName scopeRes, di.ownerArena⟩

end DemangleInfo

/-- The identifier of a name is empty for `<>` only. -/
theorem getIdentifier_ne_nil {di : DemangleInfo} (hne : di.demangled ≠ [])
    (hangle : di.demangled ≠ ascii "<>") : di.getIdentifier ≠ [] := by
  rw [DemangleInfo.getIdentifier]
  split
  case isFalse => exact hne
  case isTrue h =>
    obtain ⟨-, hfirst, hends⟩ := h
    intro hnil
    match hbytes : di.demangled with
    | [] => exact hne hbytes
    | [c] =>
      rw [hbytes] at hfirst hends
      obtain rfl : c = 60 := hfirst
      exact absurd hends (by decide)
    | [c, c'] =>
      rw [hbytes] at hfirst hends
      obtain rfl : c = 60 := hfirst
      have hlast : ([c'] == ascii ">") = true := hends
      have hc' : [c'] = ascii ">" := by simpa using hlast
      refine hangle ?_
      rw [hbytes, (List.cons.inj hc').1]
      rfl
    | c :: c' :: c'' :: more =>
      rw [hbytes] at hnil
      simp [RtString.subStr] at hnil

/-- The text of a name: its identifier, and its generic arguments. -/
theorem getFullName_name (bytes genericTypes : RtString) {scopeRes : RtString} :
    ({ type := .name, demangled := bytes, genericTypes := genericTypes } : DemangleInfo).getFullName
        scopeRes =
      ({ type := .name, demangled := bytes } : DemangleInfo).getIdentifier ++ genericTypes := by
  simp [DemangleInfo.getFullName, DemangleInfo.getFullNameOf, DemangleInfo.isFunctionLike,
    DemangleInfo.getArgTypesName, DemangleInfo.getIdentifier]

/-- The name of an operator is not `<>`. -/
theorem getOperatorNameMap_ne_angle (code : RtString) : getOperatorNameMap code ≠ ascii "<>" := by
  rw [getOperatorNameMap]
  split
  · decide
  · split <;> decide

end CangjieRuntime.Demangle
