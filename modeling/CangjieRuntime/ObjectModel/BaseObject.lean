/-
  The traversals of an object's references (`rt.objectmodel/BaseObject.cj`), on 64-bit targets.

  An object has a header with its type; behind it come the fields of a plain object, at 8, or the
  elements of an array, at 16, after its length.  The type says whether there are references at
  all, and its bitmap, or that of the array's component, where they are.  The embedding:

    * a type is a tree, with the component below an array type; the fields the traversals read are
      kept, and reading the component of a type that has none is a fault;
    * the visitor is the list of the addresses visited, as for the bitmaps.
-/
import CangjieRuntime.ObjectModel.GCTib

set_option linter.unusedVariables false

namespace CangjieRuntime.ObjectModel

/-- A type, as far as the traversals read it; `kind` is an `Int8`, `flag` the byte behind it. -/
inductive TypeInfo
  | mk (kind : Int) (flag : Nat) (instanceSize : Nat) (gctib : GCTib) (component : Option TypeInfo)

namespace TypeInfo

def TYPE_KIND_CLASS : Int := -128
def TYPE_KIND_INTERFACE : Int := -127
def TYPE_KIND_RAWARRAY : Int := -126
def TYPE_KIND_FUNC : Int := -125
def TYPE_KIND_TEMP_ENUM : Int := -124
def TYPE_KIND_WEAKREF_CLASS : Int := -123
def TYPE_KIND_FOREIGN_PROXY : Int := -122
def TYPE_KIND_EXPORTED_REF : Int := -121
def TYPE_KIND_TUPLE : Int := 21
def TYPE_KIND_STRUCT : Int := 22
def TYPE_KIND_ENUM : Int := 23
def FLAG_HAS_REF_FIELD : Nat := 1

/-- `TypeInfoGetType`: a negative kind is a reference type. -/
def kind : TypeInfo → Int
  | mk kind _ _ _ _ => kind

def flag : TypeInfo → Nat
  | mk _ flag _ _ _ => flag

/-- `TypeInfoGetInstanceSize`: the word at offset 12. -/
def instanceSize : TypeInfo → Nat
  | mk _ _ size _ _ => size

/-- `TypeInfoGetGCTib`: the bitmap of the references. -/
def gctib : TypeInfo → GCTib
  | mk _ _ _ gctib _ => gctib

/-- `TypeInfoGetComponentTypeInfo`: the type of the elements; to read it from null faults. -/
def component : TypeInfo → Except Fault TypeInfo
  | mk _ _ _ _ (some component) => .ok component
  | mk _ _ _ _ none => .error .nullDeref

/-- `TypeInfoIsRawArray`: an array, whose references are those of its elements. -/
def isRawArray (typeInfo : TypeInfo) : Bool := typeInfo.kind = TYPE_KIND_RAWARRAY

/-- `TypeInfoIsRef`: values of the type are references. -/
def isRef (typeInfo : TypeInfo) : Bool := typeInfo.kind < 0

/-- `TypeInfoIsStructType`: values of the type have their fields in place. -/
def isStructType (typeInfo : TypeInfo) : Bool :=
  typeInfo.kind = TYPE_KIND_STRUCT || typeInfo.kind = TYPE_KIND_TUPLE ||
    typeInfo.kind = TYPE_KIND_ENUM

/-- `TypeInfoIsObjectLike`: the kinds of reference that an array of references can have. -/
def isObjectLike (typeInfo : TypeInfo) : Bool :=
  typeInfo.kind = TYPE_KIND_CLASS || typeInfo.kind = TYPE_KIND_WEAKREF_CLASS ||
    typeInfo.kind = TYPE_KIND_TEMP_ENUM || typeInfo.kind = TYPE_KIND_FUNC ||
    typeInfo.kind = TYPE_KIND_FOREIGN_PROXY || typeInfo.kind = TYPE_KIND_EXPORTED_REF ||
    typeInfo.kind = TYPE_KIND_RAWARRAY || typeInfo.kind = TYPE_KIND_INTERFACE

/-- `TypeInfoHasRefField`: of an array, whether its elements are references or have one. -/
def hasRefField : TypeInfo → Except Fault Bool
  | mk kind flag _ _ component =>
    if kind = TYPE_KIND_RAWARRAY then
      match component with
      | none => .error .nullDeref
      | some component => if component.isRef then .ok true else component.hasRefField
    else .ok (flag &&& FLAG_HAS_REF_FIELD ≠ 0)

end TypeInfo

/-- An object: its address, its type, and the length if it is an array. -/
structure BaseObject where
  address : Nat
  typeInfo : TypeInfo
  length : Nat

namespace BaseObject

abbrev MARRAY_CONTENT_OFFSET : Nat := 16

/-- `TypeInfoPointerSize`. -/
abbrev typeInfoPointerSize : Nat := 8

/-- `MArrayGetElementSize`: a reference has 8 bytes, a value its own size. -/
def getElementSize (array : BaseObject) : Except Fault Nat := do
  let component ← array.typeInfo.component
  if component.isRef then .ok 8 else .ok component.instanceSize

/-- `BaseObjectGetSize`: header and content, rounded up to 8. -/
def getSize (object : BaseObject) : Except Fault Nat := do
  let size ←
    if object.typeInfo.isRawArray then do
      let elementSize ← object.getElementSize
      .ok (Words.add 64 (Words.mul 64 object.length elementSize) MARRAY_CONTENT_OFFSET)
    else .ok (Words.add 64 object.typeInfo.instanceSize typeInfoPointerSize)
  .ok (Words.add 64 size 7 &&& (MAX - 7))

/-- The loop over the elements of an array of structs in `BaseObjectForEachArrayElement`; the first
    argument is `length - index`. -/
def structElements (gctib : GCTib) (elementSize : Nat) : Nat → Nat → List Nat
  | 0, _ => []
  | remaining + 1, current =>
    gctibForEachBitmapWord gctib current ++
      structElements gctib elementSize remaining (Words.add 64 current elementSize)

/-- The loop over the elements of an array of references. -/
def refElements : Nat → Nat → List Nat
  | 0, _ => []
  | remaining + 1, current => current :: refElements remaining (Words.add 64 current REF_FIELD_SIZE)

/-- `MArrayForEachRefFieldInRange`: its loops are those over the elements of an array. -/
def mArrayForEachRefFieldInRange (array : BaseObject) (fieldStart fieldEnd : Nat) :
    Except Fault (List Nat) := do
  let component ← array.typeInfo.component
  let size := Words.sub 64 fieldEnd fieldStart
  if component.isStructType then do
    let elementSize ← array.getElementSize
    if elementSize = 0 then .error .abort
    else .ok (structElements component.gctib elementSize (size / elementSize) fieldStart)
  else if component.isObjectLike then .ok (refElements (size / REF_FIELD_SIZE) fieldStart)
  else .error .abort

/-- `BaseObjectForEachArrayElement`: the elements are structs with a bitmap, or references, and any
    others abort. -/
def forEachArrayElement (object : BaseObject) : Except Fault (List Nat) := do
  let component ← object.typeInfo.component
  let current := Words.add 64 object.address MARRAY_CONTENT_OFFSET
  if component.isStructType then do
    let elementSize ← object.getElementSize
    .ok (structElements component.gctib elementSize object.length current)
  else if component.isObjectLike then .ok (refElements object.length current)
  else .error .abort

/-- `BaseObjectForEachRefField`: all references of an object. -/
def forEachRefField (object : BaseObject) : Except Fault (List Nat) := do
  let hasRefField ← object.typeInfo.hasRefField
  if hasRefField = false then .ok []
  else if object.typeInfo.isRawArray then object.forEachArrayElement
  else
    .ok (gctibForEachBitmapWord object.typeInfo.gctib
      (Words.add 64 object.address typeInfoPointerSize))

/-- The loop over the elements in `BaseObjectForEachRefInStruct`; the third argument is
    `length - index`. -/
def structElementsBefore (gctib : GCTib) (elementSize aggregateEnd : Nat) : Nat → Nat → List Nat
  | 0, _ => []
  | remaining + 1, current =>
    if current < aggregateEnd then
      gctibForEachBitmapWord gctib current ++
        structElementsBefore gctib elementSize aggregateEnd remaining
          (Words.add 64 current elementSize)
    else []

/-- The elements from `startIndex` on in `BaseObjectForEachRefInStruct`. -/
def elementsInStruct (array : BaseObject) (gctib : GCTib)
    (elementSize aggregateStart aggregateEnd : Nat) : List Nat :=
  let content := Words.add 64 array.address MARRAY_CONTENT_OFFSET
  let startIndex := Words.sub 64 aggregateStart content / elementSize
  let current := Words.add 64 content (Words.mul 64 startIndex elementSize)
  structElementsBefore gctib elementSize aggregateEnd (array.length - startIndex) current

/-- `BaseObjectForEachRefInStruct`: the references of a struct in the object; an array without
    structs aborts. -/
def forEachRefInStruct (object : BaseObject) (aggregateStart aggregateEnd : Nat) :
    Except Fault (List Nat) := do
  let hasRefField ← object.typeInfo.hasRefField
  if hasRefField = false then .ok []
  else if object.typeInfo.isRawArray then
    let component ← object.typeInfo.component
    if component.isStructType = false then .error .abort
    else
      let elementSize ← object.getElementSize
      if elementSize = 0 then .error .abort
      else
        .ok (object.elementsInStruct component.gctib elementSize aggregateStart aggregateEnd)
  else
    gctibForEachBitmapWordInRange object.typeInfo.gctib
      (Words.add 64 object.address typeInfoPointerSize) aggregateStart aggregateEnd

end BaseObject

end CangjieRuntime.ObjectModel
