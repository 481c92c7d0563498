/-
  The references of an object, whole and in ranges.

  What a type says about an object comes down to a layout: so many pieces of one size behind each
  other, with references at the same words of each.  A plain object is one piece, an array has a
  piece for each element.  The full traversal visits exactly the references of the layout, in
  ascending order, and every one is a word of the object as `BaseObjectGetSize` measures it
  (`forEachRefField_inside`).

  `MArrayForEachRefFieldInRange` sees a stretch of elements.  From the start of an element on it
  visits the references of the elements that lie in the range as a whole
  (`forEachRefFieldInRange_exact`), so that an array can be visited range by range, along whatever
  cuts between elements (`forEachRefFieldInRange_cuts`).
-/
import CangjieRuntime.ObjectModel.StructScan

set_option linter.unusedVariables false

namespace CangjieRuntime.ObjectModel

/-! ## Layouts -/

/-- `count` pieces of `size` bytes from `content` on, with references at the words `bit`. -/
structure Layout where
  content : Nat
  count : Nat
  size : Nat
  bit : Nat → Bool

namespace Layout

variable {layout : Layout} {visit : Nat → List Nat}

/-- Where piece `k` starts. -/
def piece (layout : Layout) (k : Nat) : Nat := layout.content + k * layout.size

/-- `a` is a reference of piece `k`.  The references of all pieces are at the same words, counted
    from the start of the piece. -/
def RefOf (layout : Layout) (k a : Nat) : Prop :=
  ∃ i, layout.bit i = true ∧ a = layout.piece k + 8 * i

/-- `a` is a reference. -/
def IsRef (layout : Layout) (a : Nat) : Prop := ∃ k < layout.count, layout.RefOf k a

/-- The pieces are in memory, at aligned addresses, and the references words of a piece. -/
structure InMemory (layout : Layout) : Prop where
  size_pos : 0 < layout.size
  fields : ∀ i, layout.bit i = true → 8 * i + 8 ≤ layout.size
  aligned : ∀ k < layout.count, 8 ∣ layout.piece k
  fits : layout.piece layout.count ≤ 2 ^ 64

/-- `visit` visits the references of each piece, in ascending order. -/
def Visits (layout : Layout) (visit : Nat → List Nat) : Prop :=
  ∀ k < layout.count, (visit (layout.piece k)).Pairwise (· < ·) ∧
    ∀ a, a ∈ visit (layout.piece k) ↔ layout.RefOf k a

/-- The visits of `n` pieces from `index` on. -/
def stretch (layout : Layout) (visit : Nat → List Nat) (index n : Nat) : List Nat :=
  (List.range' index n).flatMap fun k => visit (layout.piece k)

/-- The element `n` elements further on starts at the distance of their sizes. -/
theorem piece_add (layout : Layout) (k n : Nat) :
    layout.piece (k + n) = layout.piece k + n * layout.size := by
  show layout.content + (k + n) * layout.size = layout.content + k * layout.size + n * layout.size
  rw [Nat.add_mul, Nat.add_assoc]

/-- Each element starts where the one before it ends. -/
theorem piece_succ (layout : Layout) (k : Nat) :
    layout.piece (k + 1) = layout.piece k + layout.size := by
  rw [piece_add, Nat.one_mul]

/-- Later elements start at higher addresses. -/
theorem piece_mono (layout : Layout) {i j : Nat} (h : i ≤ j) : layout.piece i ≤ layout.piece j :=
  Nat.add_le_add_left (Nat.mul_le_mul_right _ h) _

/-- An element of a layout in memory starts at an address of 64 bits. -/
theorem InMemory.piece_lt (h : layout.InMemory) {k : Nat} (hk : k < layout.count) :
    layout.piece k < 2 ^ 64 := by
  have hnext := layout.piece_mono (show k + 1 ≤ layout.count from hk)
  have hsucc := layout.piece_succ k
  have hpos := h.size_pos
  have hfits := h.fits
  omega

/-- The order of the addresses is the order of the elements. -/
theorem InMemory.le_of_piece_le (h : layout.InMemory) {i j : Nat}
    (hij : layout.piece i ≤ layout.piece j) : i ≤ j := by
  by_contra hlt
  have hnext := layout.piece_mono (show j + 1 ≤ i from Nat.lt_of_not_le hlt)
  have hsucc := layout.piece_succ j
  have hpos := h.size_pos
  omega

/-- The pieces from `index` on that end by an address. -/
theorem InMemory.piece_le_iff (h : layout.InMemory) {index k fieldEnd : Nat}
    (hle : layout.piece index ≤ fieldEnd) (hk : index ≤ k) :
    layout.piece k ≤ fieldEnd ↔ k ≤ index + (fieldEnd - layout.piece index) / layout.size := by
  obtain ⟨n, rfl⟩ := Nat.exists_eq_add_of_le hk
  rw [piece_add, Nat.add_le_add_iff_left, Nat.le_div_iff_mul_le h.size_pos]
  omega

/-- A reference of a piece is a word of it. -/
theorem InMemory.refOf (h : layout.InMemory) {k a : Nat} (ha : layout.RefOf k a) :
    layout.piece k ≤ a ∧ a + 8 ≤ layout.piece (k + 1) := by
  obtain ⟨i, hi, rfl⟩ := ha
  have hfield := h.fields i hi
  have hsucc := layout.piece_succ k
  constructor <;> omega

/-- A stretch is visited element by element, from the first one on. -/
theorem stretch_succ (layout : Layout) (visit : Nat → List Nat) (index n : Nat) :
    layout.stretch visit index (n + 1) =
      visit (layout.piece index) ++ layout.stretch visit (index + 1) n := by
  rw [stretch, List.range'_succ, List.flatMap_cons]
  rfl

/-- One stretch behind another. -/
theorem stretch_append (layout : Layout) (visit : Nat → List Nat) (index m n : Nat) :
    layout.stretch visit index (m + n) =
      layout.stretch visit index m ++ layout.stretch visit (index + m) n := by
  rw [stretch, ← List.range'_append_1, List.flatMap_append]
  rfl

variable {index n : Nat}

/-- The visits of a stretch are the references of its elements. -/
theorem Visits.mem_stretch (h : layout.Visits visit) (hn : index + n ≤ layout.count) {a : Nat} :
    a ∈ layout.stretch visit index n ↔ ∃ k, index ≤ k ∧ k < index + n ∧ layout.RefOf k a := by
  simp only [stretch, List.mem_flatMap, List.mem_range'_1]
  constructor
  · rintro ⟨k, ⟨hle, hlt⟩, ha⟩
    exact ⟨k, hle, hlt, ((h k (by omega)).2 a).mp ha⟩
  · rintro ⟨k, hle, hlt, ha⟩
    exact ⟨k, ⟨hle, hlt⟩, ((h k (by omega)).2 a).mpr ha⟩

/-- Piece after piece is ascending. -/
theorem Visits.pairwise_stretch (h : layout.Visits visit) (hmem : layout.InMemory) : ∀ n index,
    index + n ≤ layout.count → (layout.stretch visit index n).Pairwise (· < ·) := by
  intro n
  induction n with
  | zero =>
    intro index hn
    exact List.Pairwise.nil
  | succ n ih =>
    intro index hn
    rw [stretch_succ, List.pairwise_append]
    refine ⟨(h index (by omega)).1, ih (index + 1) (by omega), fun a ha b hb => ?_⟩
    obtain ⟨k, hle, -, hb⟩ := (h.mem_stretch (by omega)).mp hb
    have hlow := (hmem.refOf (((h index (by omega)).2 a).mp ha)).2
    have hhigh := (hmem.refOf hb).1
    have := layout.piece_mono hle
    omega

/-- The elements that end within a range are in memory. -/
theorem InMemory.within (hmem : layout.InMemory) {index fieldEnd : Nat}
    (hle : layout.piece index ≤ fieldEnd) (hend : fieldEnd ≤ layout.piece layout.count) :
    layout.content + (index + (fieldEnd - layout.piece index) / layout.size) * layout.size ≤
      2 ^ 64 := by
  have hdiv := Nat.div_mul_le_self (fieldEnd - layout.piece index) layout.size
  have hfits := hmem.fits
  have hpiece : layout.piece index = layout.content + index * layout.size := rfl
  rw [Nat.add_mul]
  omega

end Layout

/-! ## Objects -/

namespace BaseObject

open TypeInfo

/-- An array of references: its elements are in memory. -/
structure RefArray (object : BaseObject) (component : TypeInfo) : Prop where
  kind : object.typeInfo.isRawArray = true
  component_eq : object.typeInfo.component = .ok component
  isObjectLike : component.isObjectLike = true
  aligned : 8 ∣ object.address
  inMemory : object.address + 16 + object.length * 8 ≤ 2 ^ 64

/-- The layout of an array whose elements have references. -/
inductive LaidArray (object : BaseObject) : Layout → Prop
  | structs {component : TypeInfo} (h : StructArray object component)
      (hflag : object.typeInfo.hasRefField = .ok true) :
      LaidArray object
        ⟨object.address + 16, object.length, component.instanceSize, component.gctib.bit⟩
  | refs {component : TypeInfo} (h : RefArray object component) :
      LaidArray object ⟨object.address + 16, object.length, 8, fun i => decide (i = 0)⟩

/-- The layout of an object that has references.  A plain object is one piece, behind its header; an
    array has a piece for each element. -/
inductive Laid (object : BaseObject) : Layout → Prop
  | plain (h : PlainLayout object) (hflag : object.typeInfo.hasRefField = .ok true)
      (hfield : ∃ i, object.typeInfo.gctib.bit i = true) :
      Laid object ⟨object.address + 8, 1, object.typeInfo.instanceSize, object.typeInfo.gctib.bit⟩
  | array {layout : Layout} (h : LaidArray object layout) : Laid object layout

variable {object : BaseObject} {component : TypeInfo} {layout : Layout}

/-- The component of an array of references is a reference type. -/
theorem RefArray.isRef (h : RefArray object component) : component.isRef = true := by
  have hkind := h.isObjectLike
  rw [TypeInfo.isObjectLike] at hkind
  simp only [Bool.or_eq_true, decide_eq_true_eq] at hkind
  refine decide_eq_true ?_
  rcases hkind with ((((((hk | hk) | hk) | hk) | hk) | hk) | hk) | hk <;> rw [hk] <;> decide

/-- So it is no struct, and the loop over references is taken. -/
theorem RefArray.isStructType (h : RefArray object component) :
    component.isStructType = false := by
  have hneg : component.kind < 0 := of_decide_eq_true h.isRef
  rw [TypeInfo.isStructType]
  simp only [Bool.or_eq_false_iff, decide_eq_false_iff_not]
  refine ⟨⟨?_, ?_⟩, ?_⟩ <;>
  · intro hk
    rw [hk] at hneg
    exact absurd hneg (by decide)

/-- What the traversals read of the types of an array of references. -/
theorem RefArray.reads (h : RefArray object component) :
    object.typeInfo.hasRefField = .ok true ∧ object.getElementSize = .ok 8 := by
  obtain ⟨address, typeInfo, length⟩ := object
  obtain ⟨kind, flag, size, gctib, comp⟩ := typeInfo
  have hkind : kind = TYPE_KIND_RAWARRAY := of_decide_eq_true h.kind
  have hcomp : comp = some component := by
    have hread := h.component_eq
    cases comp with
    | none => cases hread
    | some c => exact congrArg some (Except.ok.inj hread)
  have href := h.isRef
  subst hcomp
  constructor
  · simp only [hasRefField, if_pos hkind, href, if_true]
  · simp only [getElementSize, h.component_eq, bind, Except.bind, href, if_true]

/-- The loop over the elements of an array of references. -/
theorem refElements_eq {content count : Nat} {bit : Nat → Bool} : ∀ n index,
    content + (index + n) * 8 ≤ 2 ^ 64 →
    refElements n ((content + index * 8) % 2 ^ 64) =
      Layout.stretch ⟨content, count, 8, bit⟩ (fun a => [a]) index n := by
  intro n
  induction n with
  | zero =>
    intro index hmem
    rfl
  | succ n ih =>
    intro index hmem
    have hrest := ih (index + 1) (by omega)
    rw [refElements, add_elementSize, element_lt (by decide) hmem, hrest, Layout.stretch_succ]
    rfl

/-- The elements of a laid-out array lie within memory. -/
theorem LaidArray.inMemory (h : LaidArray object layout) : layout.InMemory := by
  cases h with
  | @structs component h hflag =>
    refine ⟨h.size_pos, h.fields, fun k hk => ?_, h.inMemory⟩
    show 8 ∣ object.address + 16 + k * component.instanceSize
    exact Nat.dvd_add (Nat.dvd_add h.aligned (by decide)) (Nat.dvd_mul_left_of_dvd h.size_dvd k)
  | refs h =>
    refine ⟨Nat.succ_pos 7, fun i hi => ?_, fun k hk => ?_, h.inMemory⟩
    · have hzero : i = 0 := of_decide_eq_true hi
      show 8 * i + 8 ≤ 8
      omega
    · show 8 ∣ object.address + 16 + k * 8
      exact Nat.dvd_add (Nat.dvd_add h.aligned (by decide)) (Nat.dvd_mul_left 8 k)

/-- The traversals of an array go through the pieces of its layout: the whole array, and from the
    start of an element on those that end within the range. -/
def Traversed (object : BaseObject) (layout : Layout) : Prop :=
  ∃ visit, layout.Visits visit ∧
    object.forEachRefField = .ok (layout.stretch visit 0 layout.count) ∧
    ∀ index fieldEnd, layout.piece index ≤ fieldEnd → fieldEnd ≤ layout.piece layout.count →
      fieldEnd < 2 ^ 64 →
      object.mArrayForEachRefFieldInRange (layout.piece index) fieldEnd =
        .ok (layout.stretch visit index ((fieldEnd - layout.piece index) / layout.size))

/-- An array of structs is traversed element by element, each by the bitmap of its type. -/
theorem StructArray.traversed (h : StructArray object component)
    (hflag : object.typeInfo.hasRefField = .ok true) :
    Traversed object
      ⟨object.address + 16, object.length, component.instanceSize, component.gctib.bit⟩ := by
  have hmem := (LaidArray.structs h hflag).inMemory
  obtain ⟨-, hsize⟩ := h.reads
  have hpos := h.size_pos
  refine ⟨gctibForEachBitmapWord component.gctib, fun k hk => ?_, ?_, ?_⟩
  · obtain ⟨hfits, hcontent⟩ := h.element_fits hk
    exact gctibForEachBitmapWord_spec hfits hcontent
  · have hall := @structElements_eq component.gctib component.instanceSize
      (object.address + 16) hpos object.length 0 (by rw [Nat.zero_add]; exact h.inMemory)
    rw [Nat.zero_mul, Nat.add_zero] at hall
    simp only [forEachRefField, forEachArrayElement, hflag, bind, Except.bind, h.kind,
      h.component_eq, h.isStruct, hsize, Words.add, hall, Bool.true_eq_false, if_false, if_true]
    rfl
  · intro index fieldEnd hle hend hword
    have hsome : ¬ component.instanceSize = 0 := by omega
    have hstretch := @structElements_eq component.gctib component.instanceSize
      (object.address + 16) hpos _ index (hmem.within hle hend)
    have hstart : (object.address + 16 + index * component.instanceSize) % 2 ^ 64 =
        object.address + 16 + index * component.instanceSize :=
      Nat.mod_eq_of_lt (Nat.lt_of_le_of_lt hle hword)
    rw [hstart] at hstretch
    simp only [mArrayForEachRefFieldInRange, h.component_eq, bind, Except.bind, h.isStruct,
      hsize, Words.sub_eq hle hword, if_true, if_neg hsome]
    exact congrArg Except.ok hstretch

/-- An array of references is traversed with one reference an element. -/
theorem RefArray.traversed (h : RefArray object component) :
    Traversed object ⟨object.address + 16, object.length, 8, fun i => decide (i = 0)⟩ := by
  have hmem := (LaidArray.refs h).inMemory
  obtain ⟨hflag, hsize⟩ := h.reads
  refine ⟨fun a => [a], fun k hk => ?_, ?_, ?_⟩
  -- the one reference of an element is the element
  · refine ⟨List.pairwise_singleton _ _, fun a => ?_⟩
    rw [List.mem_singleton]
    constructor
    · rintro rfl
      exact ⟨0, rfl, rfl⟩
    · rintro ⟨i, hi, rfl⟩
      obtain rfl : i = 0 := of_decide_eq_true hi
      rfl
  · have hall := @refElements_eq (object.address + 16) object.length (fun i => decide (i = 0))
      object.length 0 (by rw [Nat.zero_add]; exact h.inMemory)
    rw [Nat.zero_mul, Nat.add_zero] at hall
    simp only [forEachRefField, forEachArrayElement, hflag, bind, Except.bind, h.kind,
      h.component_eq, h.isStructType, h.isObjectLike, Words.add, hall, Bool.true_eq_false,
      Bool.false_eq_true, if_false, if_true]
  · intro index fieldEnd hle hend hword
    have hstretch := @refElements_eq (object.address + 16) object.length
      (fun i => decide (i = 0)) _ index (hmem.within hle hend)
    have hstart : (object.address + 16 + index * 8) % 2 ^ 64 = object.address + 16 + index * 8 :=
      Nat.mod_eq_of_lt (Nat.lt_of_le_of_lt hle hword)
    rw [hstart] at hstretch
    simp only [mArrayForEachRefFieldInRange, h.component_eq, bind, Except.bind, h.isStructType,
      h.isObjectLike, Words.sub_eq hle hword, Bool.false_eq_true, if_false, if_true]
    exact congrArg Except.ok hstretch

/-- Arrays of both kinds are traversed by their layout. -/
theorem LaidArray.traversed (h : LaidArray object layout) : Traversed object layout := by
  cases h with
  | structs h hflag => exact h.traversed hflag
  | refs h => exact h.traversed

/-- The pieces of a laid-out object lie within memory. -/
theorem Laid.inMemory (h : Laid object layout) : layout.InMemory := by
  cases h with
  | plain h hflag hfield =>
    obtain ⟨i, hi⟩ := hfield
    have hsize := h.fields i hi
    refine ⟨?_, h.fields, fun k hk => ?_, ?_⟩
    · show 0 < object.typeInfo.instanceSize
      omega
    · obtain rfl : k = 0 := Nat.lt_one_iff.mp hk
      show 8 ∣ object.address + 8 + 0 * object.typeInfo.instanceSize
      rw [Nat.zero_mul]
      exact Nat.dvd_add (Nat.dvd_add h.aligned (by decide)) (by decide)
    · show object.address + 8 + 1 * object.typeInfo.instanceSize ≤ 2 ^ 64
      rw [Nat.one_mul]
      exact h.inMemory
  | array h => exact h.inMemory

/-- The traversal of an object goes through the pieces of its layout. -/
theorem Laid.traversal (h : Laid object layout) : ∃ visit, layout.Visits visit ∧
    object.forEachRefField = .ok (layout.stretch visit 0 layout.count) := by
  have hmem := h.inMemory
  cases h with
  | plain h hflag hfield =>
    have hfirst : object.address + 8 + 0 * object.typeInfo.instanceSize = object.address + 8 := by
      rw [Nat.zero_mul, Nat.add_zero]
    have hcontent : object.address + 8 < 2 ^ 64 := by
      have hlt := hmem.piece_lt (show 0 < 1 by decide)
      rwa [Layout.piece, hfirst] at hlt
    have hfits : object.typeInfo.gctib.Fits (object.address + 8) := by
      intro i hi
      have := h.fields i hi
      have := h.inMemory
      omega
    refine ⟨gctibForEachBitmapWord object.typeInfo.gctib, fun k hk => ?_, ?_⟩
    · obtain rfl : k = 0 := Nat.lt_one_iff.mp hk
      rw [Layout.piece, hfirst]
      obtain ⟨hascending, hvisits⟩ := gctibForEachBitmapWord_spec hfits hcontent
      refine ⟨hascending, fun a => ?_⟩
      rw [hvisits, Layout.RefOf, Layout.piece, hfirst]
    · have hword : Words.add 64 object.address typeInfoPointerSize = object.address + 8 :=
        Words.add_eq hcontent
      simp only [forEachRefField, hflag, bind, Except.bind, h.kind, hword, Bool.true_eq_false,
        Bool.false_eq_true, if_false]
      rw [Layout.stretch_succ, Layout.piece, hfirst]
      exact congrArg Except.ok (List.append_nil _).symm
  | array h =>
    obtain ⟨visit, hvisits, hall, -⟩ := h.traversed
    exact ⟨visit, hvisits, hall⟩

/-- The size of an object is that of its header and its pieces, rounded up. -/
theorem Laid.getSize_eq (h : Laid object layout) (hne : 0 < object.address) :
    ∃ header, layout.content = object.address + header ∧ 8 ≤ header ∧
      object.getSize = .ok (roundUp (header + layout.count * layout.size)) ∧
      object.address + roundUp (header + layout.count * layout.size) ≤ 2 ^ 64 := by
  have hmask : MAX - 7 = MAX ^^^ 7 := by decide
  -- the rounding, for a size that is in memory
  have hround : ∀ size, 8 ∣ object.address → object.address + size ≤ 2 ^ 64 →
      Words.add 64 size 7 &&& (MAX - 7) = roundUp size ∧
        object.address + roundUp size ≤ 2 ^ 64 := by
    intro size haligned hfits
    have hsize : object.address + roundUp size ≤ 2 ^ 64 := by
      unfold roundUp
      omega
    refine ⟨?_, hsize⟩
    rw [hmask]
    exact (gctibAlignRangeStart_eq (by omega)).trans (Nat.mod_eq_of_lt (by omega))
  cases h with
  | plain h hflag hfield =>
    have hfits := h.inMemory
    obtain ⟨hsize, hend⟩ := hround (8 + object.typeInfo.instanceSize) h.aligned (by omega)
    have hadd : Words.add 64 object.typeInfo.instanceSize typeInfoPointerSize =
        8 + object.typeInfo.instanceSize := by
      rw [Nat.add_comm]
      exact Words.add_eq (show object.typeInfo.instanceSize + 8 < 2 ^ 64 by omega)
    refine ⟨8, rfl, Nat.le_refl 8, ?_, ?_⟩
    · rw [Nat.one_mul]
      simp only [getSize, h.kind, Bool.false_eq_true, if_false, bind, Except.bind, hadd, hsize]
    · rw [Nat.one_mul]
      exact hend
  | array h =>
    -- the elements and the header, as words
    have hadd : ∀ size, object.address + 16 + object.length * size ≤ 2 ^ 64 →
        Words.add 64 (Words.mul 64 object.length size) MARRAY_CONTENT_OFFSET =
          16 + object.length * size := by
      intro size hfits
      rw [Words.mul_eq (by omega), Nat.add_comm]
      exact Words.add_eq (show object.length * size + 16 < 2 ^ 64 by omega)
    cases h with
    | @structs component h hflag =>
      have hfits := h.inMemory
      obtain ⟨hsize, hend⟩ := hround (16 + object.length * component.instanceSize) h.aligned
        (by omega)
      refine ⟨16, rfl, by decide, ?_, hend⟩
      simp only [getSize, h.kind, h.reads.2, if_true, bind, Except.bind, hadd _ hfits, hsize]
    | @refs component h =>
      have hfits := h.inMemory
      obtain ⟨hsize, hend⟩ := hround (16 + object.length * 8) h.aligned (by omega)
      refine ⟨16, rfl, by decide, ?_, hend⟩
      simp only [getSize, h.kind, h.reads.2, if_true, bind, Except.bind, hadd _ hfits, hsize]

/-! ## The whole object -/

/-- **The traversal of an object visits its references**, each once and in ascending order, and
    every one is a word of the object behind its header.  A plain object is one piece of its layout
    and an array has a piece for each element; whichever path of the source scans the object, it
    goes through the references of the pieces in turn. -/
theorem forEachRefField_inside (h : Laid object layout) (hne : 0 < object.address) :
    ∃ visits size, object.forEachRefField = .ok visits ∧ object.getSize = .ok size ∧
      visits.Pairwise (· < ·) ∧ (∀ a, a ∈ visits ↔ layout.IsRef a) ∧
      object.address + size ≤ 2 ^ 64 ∧
      ∀ a ∈ visits, 8 ∣ a ∧ object.address + 8 ≤ a ∧ a + 8 ≤ object.address + size := by
  have hmem := h.inMemory
  obtain ⟨visit, hvisits, hall⟩ := h.traversal
  obtain ⟨header, hcontent, hheader, hsize, hend⟩ := h.getSize_eq hne
  have hrefs : ∀ a, a ∈ layout.stretch visit 0 layout.count ↔ layout.IsRef a := by
    intro a
    rw [hvisits.mem_stretch (Nat.le_of_eq (Nat.zero_add _)), Nat.zero_add]
    constructor
    · rintro ⟨k, -, hk, ha⟩
      exact ⟨k, hk, ha⟩
    · rintro ⟨k, hk, ha⟩
      exact ⟨k, Nat.zero_le k, hk, ha⟩
  refine ⟨_, _, hall, hsize, hvisits.pairwise_stretch hmem _ 0 (Nat.le_of_eq (Nat.zero_add _)),
    hrefs, hend, fun a ha => ?_⟩
  obtain ⟨k, hk, href⟩ := (hrefs a).mp ha
  obtain ⟨hlow, hhigh⟩ := hmem.refOf href
  have hfirst := layout.piece_mono (Nat.zero_le k)
  have hlast := layout.piece_mono (show k + 1 ≤ layout.count from hk)
  have hzero : layout.piece 0 = object.address + header := by
    rw [Layout.piece, Nat.zero_mul, Nat.add_zero, hcontent]
  have hcount : layout.piece layout.count = object.address + header + layout.count * layout.size :=
    congrArg (· + layout.count * layout.size) hcontent
  have hround := le_roundUp (header + layout.count * layout.size)
  refine ⟨?_, by omega, by omega⟩
  obtain ⟨i, -, rfl⟩ := href
  exact Nat.dvd_add (hmem.aligned k hk) (Nat.dvd_mul_right 8 i)

/-- The references of the struct of 24 words. -/
theorem forEachRefField_inside_oneElement : ∃ visits size,
    oneElement.forEachRefField = .ok visits ∧ oneElement.getSize = .ok size ∧
      visits.Pairwise (· < ·) ∧
      (∀ a, a ∈ visits ↔ Layout.IsRef ⟨4112, 1, 192, wideStruct.gctib.bit⟩ a) ∧
      4096 + size ≤ 2 ^ 64 ∧ ∀ a ∈ visits, 8 ∣ a ∧ 4096 + 8 ≤ a ∧ a + 8 ≤ 4096 + size :=
  forEachRefField_inside (.array (.structs structArray_oneElement rfl)) (by decide)

/-! ## Ranges of an array -/

/-- **A range of an array**: from the start of an element on, the references of the elements that
    end within the range are visited, each once and in ascending order, and no others. -/
theorem forEachRefFieldInRange_exact (h : LaidArray object layout) {index fieldEnd : Nat}
    (hle : layout.piece index ≤ fieldEnd) (hend : fieldEnd ≤ layout.piece layout.count)
    (hword : fieldEnd < 2 ^ 64) :
    ∃ visits, object.mArrayForEachRefFieldInRange (layout.piece index) fieldEnd = .ok visits ∧
      visits.Pairwise (· < ·) ∧
      ∀ a, a ∈ visits ↔ ∃ k, index ≤ k ∧ layout.piece (k + 1) ≤ fieldEnd ∧ layout.RefOf k a := by
  have hmem := h.inMemory
  obtain ⟨visit, hvisits, -, hrange⟩ := h.traversed
  have hn : index + (fieldEnd - layout.piece index) / layout.size ≤ layout.count := by
    refine hmem.le_of_piece_le (Nat.le_trans ?_ hend)
    exact (hmem.piece_le_iff hle (Nat.le_add_right _ _)).mpr (Nat.le_refl _)
  refine ⟨_, hrange index fieldEnd hle hend hword, hvisits.pairwise_stretch hmem _ index hn,
    fun a => ?_⟩
  rw [hvisits.mem_stretch hn]
  constructor
  · rintro ⟨k, hk, hlt, href⟩
    exact ⟨k, hk, (hmem.piece_le_iff hle (Nat.le_succ_of_le hk)).mpr hlt, href⟩
  · rintro ⟨k, hk, hlast, href⟩
    exact ⟨k, hk, (hmem.piece_le_iff hle (Nat.le_succ_of_le hk)).mp hlast, href⟩

theorem zero_lt_word : 0 < 2 ^ 64 := by decide

/-- An array of three references. -/
def threeRefs : BaseObject where
  address := 4096
  typeInfo := .mk TYPE_KIND_RAWARRAY 0 0 ⟨0, threeWords, zero_lt_word⟩
    (some (.mk TYPE_KIND_CLASS 1 8 ⟨0, threeWords, zero_lt_word⟩ none))
  length := 3

/-- The array with three references has the layout of an array of references. -/
theorem laidArray_threeRefs :
    LaidArray threeRefs ⟨4112, 3, 8, fun i => decide (i = 0)⟩ :=
  .refs ⟨by decide, rfl, by decide, ⟨512, rfl⟩, by decide⟩

/-- A range that ends inside the last element. -/
theorem forEachRefFieldInRange_exact_threeRefs : ∃ visits,
    threeRefs.mArrayForEachRefFieldInRange (Layout.piece ⟨4112, 3, 8, fun i => decide (i = 0)⟩ 1)
        4135 = .ok visits ∧
      visits.Pairwise (· < ·) ∧ ∀ a, a ∈ visits ↔ ∃ k, 1 ≤ k ∧
        Layout.piece ⟨4112, 3, 8, fun i => decide (i = 0)⟩ (k + 1) ≤ 4135 ∧
          Layout.RefOf ⟨4112, 3, 8, fun i => decide (i = 0)⟩ k a :=
  forEachRefFieldInRange_exact laidArray_threeRefs (by decide) (by decide) (by decide)

/-- The array range by range, from an address on and each range up to the next cut. -/
def forEachRefFieldByRanges (array : BaseObject) (fieldStart : Nat) :
    List Nat → Except Fault (List Nat)
  | [] => .ok []
  | cut :: cuts => do
    let visits ← array.mArrayForEachRefFieldInRange fieldStart cut
    let rest ← array.forEachRefFieldByRanges cut cuts
    .ok (visits ++ rest)

/-- From element `index` on, the ranges up to the last element make up one stretch. -/
theorem LaidArray.byRanges (h : LaidArray object layout)
    (hword : layout.piece layout.count < 2 ^ 64) : ∃ visit,
    object.forEachRefField = .ok (layout.stretch visit 0 layout.count) ∧
    ∀ (cuts : List Nat) (index : Nat), (index :: cuts).Pairwise (· ≤ ·) →
      (index :: cuts).getLast? = some layout.count →
      object.forEachRefFieldByRanges (layout.piece index) (cuts.map layout.piece) =
        .ok (layout.stretch visit index (layout.count - index)) := by
  have hmem := h.inMemory
  obtain ⟨visit, -, hall, hrange⟩ := h.traversed
  refine ⟨visit, hall, fun cuts => ?_⟩
  -- the first cut splits the stretch in two
  induction cuts with
  | nil =>
    intro index hmono hlast
    obtain rfl : index = layout.count := Option.some.inj hlast
    rw [Nat.sub_self]
    rfl
  | cons cut cuts ih =>
    intro index hmono hlast
    rw [List.getLast?_cons_cons] at hlast
    have hle : index ≤ cut := List.rel_of_pairwise_cons hmono List.mem_cons_self
    have hrest := ih cut (List.Pairwise.of_cons hmono) hlast
    have hcut : cut ≤ layout.count := by
      rcases List.mem_cons.mp (List.mem_of_getLast? hlast) with heq | hin
      · exact Nat.le_of_eq heq.symm
      · exact List.rel_of_pairwise_cons (List.Pairwise.of_cons hmono) hin
    have hend := layout.piece_mono hcut
    have hfirst := hrange index (layout.piece cut) (layout.piece_mono hle) hend (by omega)
    have hlen : (layout.piece cut - layout.piece index) / layout.size = cut - index := by
      obtain ⟨n, rfl⟩ := Nat.exists_eq_add_of_le hle
      rw [Layout.piece_add, Nat.add_sub_cancel_left, Nat.mul_div_cancel _ hmem.size_pos,
        Nat.add_sub_cancel_left]
    have hsplit : layout.stretch visit index (layout.count - index) =
        layout.stretch visit index (cut - index) ++
          layout.stretch visit cut (layout.count - cut) := by
      rw [show layout.count - index = (cut - index) + (layout.count - cut) by omega,
        Layout.stretch_append, Nat.add_sub_cancel' hle]
    rw [hlen] at hfirst
    simp only [List.map_cons, forEachRefFieldByRanges, hfirst, hrest, bind, Except.bind, hsplit]

/-- **An array can be visited in parts.**  Along any cuts between its elements, the visits of the
    ranges make up the visit of the whole array: no reference is lost and none is seen twice. -/
theorem forEachRefFieldInRange_cuts (h : LaidArray object layout)
    (hword : layout.piece layout.count < 2 ^ 64) (cuts : List Nat)
    (hmono : (0 :: cuts).Pairwise (· ≤ ·)) (hlast : (0 :: cuts).getLast? = some layout.count) :
    object.forEachRefFieldByRanges (layout.piece 0) (cuts.map layout.piece) =
      object.forEachRefField := by
  obtain ⟨visit, hall, hranges⟩ := h.byRanges hword
  rw [hall, hranges cuts 0 hmono hlast, Nat.sub_zero]

/-- The three references in two ranges. -/
theorem forEachRefFieldInRange_cuts_threeRefs :
    threeRefs.forEachRefFieldByRanges (Layout.piece ⟨4112, 3, 8, fun i => decide (i = 0)⟩ 0)
        ([1, 3].map (Layout.piece ⟨4112, 3, 8, fun i => decide (i = 0)⟩)) =
      threeRefs.forEachRefField :=
  forEachRefFieldInRange_cuts laidArray_threeRefs (by decide) [1, 3] (by decide) rfl

end BaseObject

end CangjieRuntime.ObjectModel
