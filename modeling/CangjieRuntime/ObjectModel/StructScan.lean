/-
  The scan of an aggregate inside an object.

  For a plain object it is the scan of a range of the object's bitmap.  For an array of structs it
  starts at the element the aggregate starts in, and goes on, whole elements at a time, as long as
  they start before the end of the aggregate: so it visits every reference of the aggregate, and
  the rest of the elements that the aggregate overlaps (`forEachRefInStruct_covers`).

  An empty aggregate strictly inside an element overlaps nothing, and the element is scanned all
  the same (`forEachRefInStruct_emptyRange`).
-/
import CangjieRuntime.ObjectModel.BaseObject
import CangjieRuntime.ObjectModel.GCTibScan

set_option linter.unusedVariables false

namespace CangjieRuntime.ObjectModel

namespace BaseObject

open TypeInfo

/-! ## Statement -/

/-- An object that is not an array: its content is in memory, and the bitmap names words of it. -/
structure PlainLayout (object : BaseObject) : Prop where
  kind : object.typeInfo.isRawArray = false
  aligned : 8 ∣ object.address
  size_lt : object.typeInfo.instanceSize < 2 ^ 32
  inMemory : object.address + 8 + object.typeInfo.instanceSize ≤ 2 ^ 64
  fields : ∀ i, object.typeInfo.gctib.bit i = true → 8 * i + 8 ≤ object.typeInfo.instanceSize

/-- Such an object whose bitmap, if it is a short one, has a bit for each word.  The scan of a range
    needs it: it shifts the bitmap by the words in front of the range, and so by at most 63. -/
structure PlainObject (object : BaseObject) : Prop extends PlainLayout object where
  short : object.typeInfo.gctib.isGCTibWord = true → object.typeInfo.instanceSize ≤ 8 * 63

/-- An array of structs with reference fields: its elements are in memory, and the bitmap names
    words of an element. -/
structure StructArray (object : BaseObject) (component : TypeInfo) : Prop where
  kind : object.typeInfo.isRawArray = true
  component_eq : object.typeInfo.component = .ok component
  isStruct : component.isStructType = true
  aligned : 8 ∣ object.address
  size_dvd : 8 ∣ component.instanceSize
  inMemory : object.address + 16 + object.length * component.instanceSize ≤ 2 ^ 64
  fields : ∀ i, component.gctib.bit i = true → 8 * i + 8 ≤ component.instanceSize
  hasField : ∃ i, component.gctib.bit i = true

/-- The content of an object, from its first address to its end. -/
inductive Content (object : BaseObject) : Nat → Nat → Prop
  | plain (h : PlainObject object) :
      Content object (object.address + 8) (object.address + 8 + object.typeInfo.instanceSize)
  | array {component : TypeInfo} (h : StructArray object component) :
      Content object (object.address + 16)
        (object.address + 16 + object.length * component.instanceSize)

/-- The addresses of element `k`. -/
def element (object : BaseObject) (component : TypeInfo) (k : Nat) : Set Nat :=
  Set.Ico (object.address + 16 + k * component.instanceSize)
    (object.address + 16 + (k + 1) * component.instanceSize)

/-- `a` is a reference field of element `k`.  It is a reference of the component's own table,
    counted from the start of the element. -/
def FieldOfElement (object : BaseObject) (component : TypeInfo) (k a : Nat) : Prop :=
  k < object.length ∧ ∃ i, component.gctib.bit i = true ∧
    a = object.address + 16 + k * component.instanceSize + 8 * i

/-- Of the addresses `all`, the scan visits those in the range, and no others but in ascending
    order and once each. -/
structure Scans (all visits : List Nat) (start rangeEnd : Nat) : Prop where
  ascending : visits.Pairwise (· < ·)
  subset : ∀ a ∈ visits, a ∈ all
  complete : ∀ a ∈ all, roundUp start ≤ a → a < rangeEnd → a ∈ visits

/-! ## Plain objects -/

section Plain

variable {object : BaseObject}

theorem hasRefField_eq {typeInfo : TypeInfo} (h : typeInfo.isRawArray = false) :
    ∃ flag, typeInfo.hasRefField = .ok flag := by
  obtain ⟨kind, flag, size, gctib, component⟩ := typeInfo
  have hkind : ¬ kind = TYPE_KIND_RAWARRAY := of_decide_eq_false h
  refine ⟨decide (flag &&& FLAG_HAS_REF_FIELD ≠ 0), ?_⟩
  cases component <;> simp only [hasRefField, if_neg hkind]

/-- **A plain object**: the scan of the aggregate is the filtered scan of the object. -/
theorem forEachRefInStruct_plain (h : PlainObject object) {start rangeEnd : Nat}
    (hle : object.address + 8 ≤ start) (hse : start ≤ rangeEnd)
    (hend : rangeEnd ≤ object.address + 8 + object.typeInfo.instanceSize)
    (hword : rangeEnd < 2 ^ 64) :
    ∃ all, object.forEachRefField = .ok all ∧ all.Pairwise (· < ·) ∧
      object.forEachRefInStruct start rangeEnd =
        .ok (all.filter fun a => decide (roundUp start ≤ a) && decide (a < rangeEnd)) := by
  have hstart : start < 2 ^ 64 := by omega
  have hcontent : Words.add 64 object.address typeInfoPointerSize = object.address + 8 :=
    Words.add_eq (by show object.address + 8 < 2 ^ 64; omega)
  have hfits : object.typeInfo.gctib.Fits (object.address + 8) := by
    intro i hi
    have := h.fields i hi
    have := h.inMemory
    omega
  have halign : 8 ∣ object.address + 8 := Nat.dvd_add h.aligned (Nat.dvd_refl 8)
  obtain ⟨flag, hflag⟩ := hasRefField_eq h.kind
  rw [forEachRefField, forEachRefInStruct, hflag]
  simp only [bind, Except.bind, h.kind, Bool.false_eq_true, if_false, hcontent]
  cases flag with
  | false => exact ⟨[], rfl, List.Pairwise.nil, rfl⟩
  | true =>
    refine ⟨gctibForEachBitmapWord object.typeInfo.gctib (object.address + 8), rfl,
      (gctibForEachBitmapWord_spec hfits (by omega)).1, ?_⟩
    refine gctibForEachBitmapWordInRange_filter hfits halign hle hstart (fun hshort => ?_)
      fun hstandard => ?_
    · have := h.short hshort
      unfold roundUp
      omega
    · have := h.size_lt
      unfold roundUp
      omega

end Plain

/-! ## Arrays of structs -/

section Array

/-- The addresses visited for `n` elements from element `index` on. -/
def elements (gctib : GCTib) (elementSize content index n : Nat) : List Nat :=
  (List.range' index n).flatMap fun k => gctibForEachBitmapWord gctib (content + k * elementSize)

variable {gctib : GCTib} {elementSize content aggregateEnd : Nat}

theorem elements_succ (gctib : GCTib) (elementSize content index n : Nat) :
    elements gctib elementSize content index (n + 1) =
      gctibForEachBitmapWord gctib (content + index * elementSize) ++
        elements gctib elementSize content (index + 1) n := by
  rw [elements, List.range'_succ, List.flatMap_cons]
  rfl

/-- The next element. -/
theorem add_elementSize (content index elementSize : Nat) :
    Words.add 64 ((content + index * elementSize) % 2 ^ 64) elementSize =
      (content + (index + 1) * elementSize) % 2 ^ 64 := by
  rw [Words.add, Nat.mod_add_mod, Nat.succ_mul, Nat.add_assoc]

/-- An element in memory starts at an address. -/
theorem element_lt {n index : Nat} (hpos : 0 < elementSize)
    (hmem : content + (index + (n + 1)) * elementSize ≤ 2 ^ 64) :
    (content + index * elementSize) % 2 ^ 64 = content + index * elementSize := by
  refine Nat.mod_eq_of_lt ?_
  have hmul : (index + (n + 1)) * elementSize =
      index * elementSize + n * elementSize + elementSize := by ring
  omega

/-- **The loop over all elements.**  The address of an element is computed by adding, and wraps only
    behind the last one. -/
theorem structElements_eq (hpos : 0 < elementSize) : ∀ n index,
    content + (index + n) * elementSize ≤ 2 ^ 64 →
    structElements gctib elementSize n ((content + index * elementSize) % 2 ^ 64) =
      elements gctib elementSize content index n := by
  intro n
  induction n with
  | zero =>
    intro index hmem
    rfl
  | succ n ih =>
    intro index hmem
    rw [structElements, add_elementSize, element_lt hpos hmem, elements_succ,
      ih (index + 1) (by rw [Nat.add_assoc, Nat.add_comm 1 n]; exact hmem)]

/-- **The loop up to the end of the aggregate** goes through the elements that start before it. -/
theorem structElementsBefore_eq (hpos : 0 < elementSize) : ∀ n index,
    content + (index + n) * elementSize ≤ 2 ^ 64 → ∃ m, m ≤ n ∧
      structElementsBefore gctib elementSize aggregateEnd n
        ((content + index * elementSize) % 2 ^ 64) =
          elements gctib elementSize content index m ∧
      (∀ k, index ≤ k → k < index + m → content + k * elementSize < aggregateEnd) ∧
      (m < n → aggregateEnd ≤ content + (index + m) * elementSize) := by
  intro n
  induction n with
  | zero =>
    intro index hmem
    exact ⟨0, Nat.le_refl 0, rfl, fun k _ _ => by omega, fun hlt => absurd hlt (lt_irrefl 0)⟩
  | succ n ih =>
    intro index hmem
    rw [structElementsBefore, element_lt hpos hmem]
    by_cases hbefore : content + index * elementSize < aggregateEnd
    · obtain ⟨m, hm, hres, hall, hlast⟩ :=
        ih (index + 1) (by rw [Nat.add_assoc, Nat.add_comm 1 n]; exact hmem)
      refine ⟨m + 1, by omega, ?_, fun k hle hlt => ?_, fun hlt => ?_⟩
      · rw [if_pos hbefore, ← element_lt hpos hmem, add_elementSize, hres, element_lt hpos hmem,
          elements_succ]
      · rcases Nat.eq_or_lt_of_le hle with rfl | hlater
        · exact hbefore
        · exact hall k hlater (by omega)
      · have := hlast (by omega)
        rwa [Nat.add_assoc, Nat.add_comm 1 m] at this
    · refine ⟨0, Nat.zero_le _, ?_, fun k _ _ => by omega, fun _ => Nat.le_of_not_lt hbefore⟩
      rw [if_neg hbefore]
      rfl

variable {object : BaseObject} {component : TypeInfo}

theorem StructArray.size_pos (h : StructArray object component) : 0 < component.instanceSize := by
  obtain ⟨i, hi⟩ := h.hasField
  have := h.fields i hi
  omega

/-- An element of the array is in memory, and so are its references. -/
theorem StructArray.element_fits (h : StructArray object component) {k : Nat}
    (hk : k < object.length) :
    component.gctib.Fits (object.address + 16 + k * component.instanceSize) ∧
      object.address + 16 + k * component.instanceSize < 2 ^ 64 := by
  have hpos := h.size_pos
  have hend : (k + 1) * component.instanceSize ≤ object.length * component.instanceSize :=
    Nat.mul_le_mul_right _ hk
  rw [Nat.succ_mul] at hend
  have hmem := h.inMemory
  refine ⟨fun i hi => ?_, by omega⟩
  have := h.fields i hi
  omega

/-- The addresses visited for a stretch of elements. -/
theorem StructArray.mem_elements (h : StructArray object component) {index n a : Nat}
    (hn : index + n ≤ object.length) :
    a ∈ elements component.gctib component.instanceSize (object.address + 16) index n ↔
      ∃ k, index ≤ k ∧ k < index + n ∧ FieldOfElement object component k a := by
  simp only [elements, List.mem_flatMap, List.mem_range'_1]
  constructor
  · rintro ⟨k, ⟨hle, hlt⟩, ha⟩
    have hk : k < object.length := by omega
    obtain ⟨hfits, hcontent⟩ := h.element_fits hk
    exact ⟨k, hle, hlt, hk, ((gctibForEachBitmapWord_spec hfits hcontent).2 a).mp ha⟩
  · rintro ⟨k, hle, hlt, hk, ha⟩
    obtain ⟨hfits, hcontent⟩ := h.element_fits hk
    exact ⟨k, ⟨hle, hlt⟩, ((gctibForEachBitmapWord_spec hfits hcontent).2 a).mpr ha⟩

/-- A field of element `k` is an address of element `k`. -/
theorem StructArray.field_mem (h : StructArray object component) {k a : Nat}
    (ha : FieldOfElement object component k a) : a ∈ element object component k := by
  obtain ⟨-, i, hi, rfl⟩ := ha
  have := h.fields i hi
  have hsucc : (k + 1) * component.instanceSize =
      k * component.instanceSize + component.instanceSize := Nat.succ_mul _ _
  refine ⟨Nat.le_add_right _ _, ?_⟩
  omega

/-- Element after element is ascending. -/
theorem StructArray.elements_pairwise (h : StructArray object component) : ∀ n index,
    index + n ≤ object.length →
    (elements component.gctib component.instanceSize (object.address + 16) index n).Pairwise
      (· < ·) := by
  intro n
  induction n with
  | zero =>
    intro index hn
    exact List.Pairwise.nil
  | succ n ih =>
    intro index hn
    have hk : index < object.length := by omega
    obtain ⟨hfits, hcontent⟩ := h.element_fits hk
    obtain ⟨hascending, hmem⟩ := gctibForEachBitmapWord_spec hfits hcontent
    rw [elements_succ, List.pairwise_append]
    refine ⟨hascending, ih (index + 1) (by omega), fun a ha b hb => ?_⟩
    obtain ⟨k, hle, -, hb⟩ := (h.mem_elements (by omega)).mp hb
    have hlow := (h.field_mem ⟨hk, (hmem a).mp ha⟩).2
    have hhigh := (h.field_mem hb).1
    have := Nat.mul_le_mul_right component.instanceSize hle
    omega

/-- What the traversals read of the types of an array of structs. -/
theorem StructArray.reads (h : StructArray object component) :
    (∃ flag, object.typeInfo.hasRefField = .ok flag) ∧
      object.getElementSize = .ok component.instanceSize := by
  obtain ⟨address, typeInfo, length⟩ := object
  obtain ⟨kind, flag, size, gctib, comp⟩ := typeInfo
  have hkind : kind = TYPE_KIND_RAWARRAY := of_decide_eq_true h.kind
  have hcomp : comp = some component := by
    have hread := h.component_eq
    cases comp with
    | none => cases hread
    | some c => exact congrArg some (Except.ok.inj hread)
  have hstruct : component.kind = TYPE_KIND_STRUCT ∨ component.kind = TYPE_KIND_TUPLE ∨
      component.kind = TYPE_KIND_ENUM := by
    have := h.isStruct
    simpa [isStructType, or_assoc] using this
  have hpositive : 0 < component.kind := by
    rcases hstruct with hk | hk | hk <;> rw [hk] <;> decide
  have href : component.isRef = false := decide_eq_false (by omega)
  have hraw : component.isRawArray = false :=
    decide_eq_false (fun hk => by rw [hk] at hpositive; exact absurd hpositive (by decide))
  subst hcomp
  constructor
  · obtain ⟨flag, hflag⟩ := hasRefField_eq hraw
    refine ⟨flag, ?_⟩
    simp only [TypeInfo.hasRefField, if_pos hkind, href, Bool.false_eq_true, if_false]
    exact hflag
  · simp only [getElementSize, h.component_eq, bind, Except.bind, href, Bool.false_eq_true, if_false]

/-- **An array of structs**: all elements are scanned by the one traversal, and a stretch of them by
    the other. -/
theorem forEachRefInStruct_array (h : StructArray object component) {start rangeEnd : Nat}
    (hle : object.address + 16 ≤ start) (hse : start ≤ rangeEnd)
    (hend : rangeEnd ≤ object.address + 16 + object.length * component.instanceSize)
    (hword : rangeEnd < 2 ^ 64) : ∃ all visits index m,
      object.forEachRefField = .ok all ∧ object.forEachRefInStruct start rangeEnd = .ok visits ∧
      ((object.typeInfo.hasRefField = .ok false ∧ all = [] ∧ visits = []) ∨
        all = elements component.gctib component.instanceSize (object.address + 16) 0
            object.length ∧
          visits = elements component.gctib component.instanceSize (object.address + 16) index m) ∧
      index + m ≤ object.length ∧
      (∀ k, index ≤ k → k < index + m →
        object.address + 16 + k * component.instanceSize < rangeEnd ∧
          start < object.address + 16 + (k + 1) * component.instanceSize) ∧
      ∀ k, k < object.length → object.address + 16 + k * component.instanceSize < rangeEnd →
        start < object.address + 16 + (k + 1) * component.instanceSize →
        index ≤ k ∧ k < index + m := by
  have hpos := h.size_pos
  have hmem := h.inMemory
  have hcontent : Words.add 64 object.address MARRAY_CONTENT_OFFSET = object.address + 16 :=
    Words.add_eq (by show object.address + 16 < 2 ^ 64; omega)
  have hcontentMod : (object.address + 16 + 0 * component.instanceSize) % 2 ^ 64 =
      object.address + 16 := by
    rw [Nat.zero_mul]
    exact Nat.mod_eq_of_lt (by omega)
  obtain ⟨⟨flag, hflag⟩, hsize⟩ := h.reads
  -- the element the aggregate starts in
  obtain ⟨index, hindexEq⟩ :
      ∃ index, (start - (object.address + 16)) / component.instanceSize = index := ⟨_, rfl⟩
  have hindexLe : index * component.instanceSize ≤ start - (object.address + 16) := by
    rw [← hindexEq]
    exact Nat.div_mul_le_self _ _
  have hindexLt : start - (object.address + 16) < (index + 1) * component.instanceSize := by
    rw [← hindexEq, Nat.mul_comm]
    exact Nat.lt_mul_div_succ _ hpos
  have hsub : Words.sub 64 start (object.address + 16) = start - (object.address + 16) :=
    Words.sub_eq hle (by omega)
  have hindex : index ≤ object.length := by
    by_contra hgt
    have := Nat.mul_le_mul_right component.instanceSize (Nat.lt_of_not_le hgt)
    rw [Nat.succ_mul] at this
    omega
  have hcurrent : Words.add 64 (object.address + 16) (Words.mul 64 index component.instanceSize) =
      (object.address + 16 + index * component.instanceSize) % 2 ^ 64 := by
    rw [Words.mul_eq (by omega), Words.add]
  obtain ⟨m, hm, hres, hbefore, hlast⟩ := @structElementsBefore_eq component.gctib
    component.instanceSize (object.address + 16) rangeEnd hpos (object.length - index) index
    (by rw [Nat.add_sub_cancel' hindex]; exact hmem)
  have hafter : ∀ k, index ≤ k → start < object.address + 16 + (k + 1) * component.instanceSize := by
    intro k hk
    have : (index + 1) * component.instanceSize ≤ (k + 1) * component.instanceSize :=
      Nat.mul_le_mul_right _ (Nat.succ_le_succ hk)
    omega
  have hstretch : ∀ k, k < object.length →
      object.address + 16 + k * component.instanceSize < rangeEnd →
      start < object.address + 16 + (k + 1) * component.instanceSize →
      index ≤ k ∧ k < index + m := by
    intro k hk hlow hhigh
    constructor
    · by_contra hgt
      have : (k + 1) * component.instanceSize ≤ index * component.instanceSize :=
        Nat.mul_le_mul_right _ (Nat.lt_of_not_le hgt)
      omega
    · by_contra hge
      have hlt : m < object.length - index := by omega
      have hafterLast := hlast hlt
      have := Nat.mul_le_mul_right component.instanceSize (Nat.le_of_not_lt hge)
      omega
  cases flag with
  | false =>
    refine ⟨[], [], index, m, ?_, ?_, Or.inl ⟨hflag, rfl, rfl⟩, by omega,
      fun k hk hlt => ⟨hbefore k hk hlt, hafter k hk⟩, hstretch⟩
    · simp only [forEachRefField, hflag, bind, Except.bind, if_true]
    · simp only [forEachRefInStruct, hflag, bind, Except.bind, if_true]
  | true =>
    refine ⟨_, _, index, m, ?_, ?_, Or.inr ⟨rfl, rfl⟩, by omega,
      fun k hk hlt => ⟨hbefore k hk hlt, hafter k hk⟩, hstretch⟩
    · have hall := @structElements_eq component.gctib component.instanceSize
        (object.address + 16) hpos object.length 0 (by rw [Nat.zero_add]; exact hmem)
      rw [hcontentMod] at hall
      simp only [forEachRefField, forEachArrayElement, hflag, bind, Except.bind, h.kind,
        h.component_eq, h.isStruct, hsize, hcontent, hall, Bool.true_eq_false, if_false, if_true]
    · have hempty : ¬ component.instanceSize = 0 := by omega
      simp only [forEachRefInStruct, hflag, bind, Except.bind, h.kind, h.component_eq, h.isStruct,
        hsize, Bool.true_eq_false, if_false, if_true, if_neg hempty, elementsInStruct, hcontent,
        hsub]
      rw [hindexEq, hcurrent, hres]

end Array

/-! ## Both -/

section Both

variable {object : BaseObject} {lo hi start rangeEnd : Nat}

/-- An element that holds an address of the range, or, when the range is empty, its start strictly
    inside. -/
def Touches (object : BaseObject) (component : TypeInfo) (start rangeEnd k : Nat) : Prop :=
  (object.element component k ∩ Set.Ico start rangeEnd).Nonempty ∨
    (start = rangeEnd ∧ object.address + 16 + k * component.instanceSize < start ∧
      start < object.address + 16 + (k + 1) * component.instanceSize)

/-- **The scan of an aggregate misses no reference.**  It visits every reference of the object in the
    range, in ascending order and once; for a plain object it visits nothing else, and for an array
    of structs nothing but references of the elements that the range touches. -/
theorem forEachRefInStruct_covers (h : Content object lo hi) (hle : lo ≤ start)
    (hse : start ≤ rangeEnd) (hend : rangeEnd ≤ hi) (hword : rangeEnd < 2 ^ 64) :
    ∃ all visits, object.forEachRefField = .ok all ∧
      object.forEachRefInStruct start rangeEnd = .ok visits ∧ Scans all visits start rangeEnd ∧
      (PlainObject object → ∀ a ∈ visits, roundUp start ≤ a ∧ a < rangeEnd) ∧
      ∀ component, StructArray object component → ∀ a ∈ visits,
        ∃ k, FieldOfElement object component k a ∧ Touches object component start rangeEnd k := by
  cases h with
  | plain h =>
    obtain ⟨all, hall, hascending, hres⟩ := forEachRefInStruct_plain h hle hse hend hword
    have hmem : ∀ a, a ∈ all.filter
        (fun a => decide (roundUp start ≤ a) && decide (a < rangeEnd)) ↔
          a ∈ all ∧ roundUp start ≤ a ∧ a < rangeEnd := by
      intro a
      rw [List.mem_filter, Bool.and_eq_true, decide_eq_true_eq, decide_eq_true_eq]
    refine ⟨all, _, hall, hres, ⟨hascending.filter _, fun a ha => ((hmem a).mp ha).1,
      fun a ha hlow hhigh => (hmem a).mpr ⟨ha, hlow, hhigh⟩⟩, fun _ a ha => ((hmem a).mp ha).2,
      fun component harray => ?_⟩
    have hkind := h.kind
    rw [harray.kind] at hkind
    cases hkind
  | array h =>
    obtain ⟨all, visits, index, m, hall, hvisits, hcases, hm, hstretch, hcover⟩ :=
      forEachRefInStruct_array h hle hse hend hword
    refine ⟨all, visits, hall, hvisits, ?_, fun hplain => ?_, fun component' h' a ha => ?_⟩
    · rcases hcases with ⟨-, rfl, rfl⟩ | ⟨rfl, rfl⟩
      · exact ⟨List.Pairwise.nil, fun a ha => ha, fun a ha _ _ => ha⟩
      · refine ⟨h.elements_pairwise m index hm, fun a ha => ?_, fun a ha hlow hhigh => ?_⟩
        · obtain ⟨k, -, -, hfield⟩ := (h.mem_elements hm).mp ha
          have hk := hfield.1
          exact (h.mem_elements (by omega)).mpr ⟨k, Nat.zero_le k, by omega, hfield⟩
        · obtain ⟨k, -, -, hfield⟩ := (h.mem_elements (by omega)).mp ha
          obtain ⟨hfirst, hlast⟩ := h.field_mem hfield
          have hround := le_roundUp start
          obtain ⟨hindex, hlt⟩ := hcover k hfield.1 (by omega) (by omega)
          exact (h.mem_elements hm).mpr ⟨k, hindex, hlt, hfield⟩
    · have hkind := hplain.kind
      rw [h.kind] at hkind
      cases hkind
    · obtain rfl := Except.ok.inj (h'.component_eq.symm.trans h.component_eq)
      rcases hcases with ⟨-, -, rfl⟩ | ⟨-, rfl⟩
      · cases ha
      · obtain ⟨k, hindex, hlt, hfield⟩ := (h.mem_elements hm).mp ha
        obtain ⟨hlow, hhigh⟩ := hstretch k hindex hlt
        refine ⟨k, hfield, ?_⟩
        rcases Nat.eq_or_lt_of_le hse with rfl | hnonempty
        · exact Or.inr ⟨rfl, hlow, hhigh⟩
        · -- the later of the two starts is in both
          have hsize := h.size_pos
          have hsucc : (k + 1) * component'.instanceSize =
              k * component'.instanceSize + component'.instanceSize := Nat.succ_mul _ _
          exact Or.inl ⟨max start (object.address + 16 + k * component'.instanceSize),
            ⟨le_max_right _ _, max_lt hhigh (by omega)⟩, ⟨le_max_left _ _, max_lt hnonempty hlow⟩⟩

/-! ## An array of one struct -/

/-- A struct of 24 words with references. -/
def wideStruct : TypeInfo := .mk TYPE_KIND_STRUCT 1 192 ⟨8192, threeWords, by decide⟩ none

def oneElement : BaseObject where
  address := 4096
  typeInfo := .mk TYPE_KIND_RAWARRAY 0 0 ⟨0, threeWords, by decide⟩ (some wideStruct)
  length := 1

theorem structArray_oneElement : StructArray oneElement wideStruct where
  kind := by decide
  component_eq := rfl
  isStruct := by decide
  aligned := ⟨512, rfl⟩
  size_dvd := ⟨24, rfl⟩
  inMemory := by decide
  fields := by
    intro i hi
    have hcount : wideStruct.gctib.bitCount = 24 := by decide
    rw [GCTib.bit, hcount, Bool.and_eq_true, decide_eq_true_eq] at hi
    show 8 * i + 8 ≤ 192
    omega
  hasField := ⟨0, by decide⟩

/-- An aggregate of seven words inside the element. -/
theorem forEachRefInStruct_covers_inside : ∃ all visits, oneElement.forEachRefField = .ok all ∧
    oneElement.forEachRefInStruct 4120 4176 = .ok visits ∧ Scans all visits 4120 4176 ∧
    (PlainObject oneElement → ∀ a ∈ visits, roundUp 4120 ≤ a ∧ a < 4176) ∧
    ∀ component, StructArray oneElement component → ∀ a ∈ visits,
      ∃ k, FieldOfElement oneElement component k a ∧ Touches oneElement component 4120 4176 k :=
  forEachRefInStruct_covers (.array structArray_oneElement) (by decide) (by decide) (by decide)
    (by decide)

/-- An empty aggregate inside the element: its first reference is visited. -/
theorem forEachRefInStruct_emptyRange : ∃ (object : BaseObject) (component : TypeInfo)
    (start : Nat), StructArray object component ∧ object.address + 16 ≤ start ∧
      start ≤ object.address + 16 + object.length * component.instanceSize ∧ start < 2 ^ 64 ∧
      ∃ visits, object.forEachRefInStruct start start = .ok visits ∧
        ∃ a ∈ visits, ¬ (roundUp start ≤ a ∧ a < start) ∧
          ¬ ∃ k, FieldOfElement object component k a ∧
            (object.element component k ∩ Set.Ico start start).Nonempty := by
  have h := structArray_oneElement
  obtain ⟨all, visits, index, m, -, hvisits, hcases, hm, -, hcover⟩ :=
    @forEachRefInStruct_array oneElement wideStruct h 4120 4120 (by decide) (Nat.le_refl _)
      (by decide) (by decide)
  refine ⟨oneElement, wideStruct, 4120, h, by decide, by decide, by decide, visits, hvisits, 4112,
    ?_, by decide, fun ⟨k, _, hmem⟩ => ?_⟩
  · rcases hcases with ⟨hflag, -, -⟩ | ⟨-, rfl⟩
    · cases hflag
    · obtain ⟨hindex, hlt⟩ := hcover 0 (by decide) (by decide) (by decide)
      exact (h.mem_elements hm).mpr ⟨0, hindex, hlt, by decide, 0, by decide, rfl⟩
  · rw [Set.Ico_self, Set.inter_empty] at hmem
    exact Set.not_nonempty_empty hmem

end Both

end BaseObject

end CangjieRuntime.ObjectModel
