/-
  Bump allocation inside a region (`Alloc` of `rt.heap.allocator/RegionInfo.cj`).

  `Alloc` compares the wrapped sum of the allocation pointer and the size with the region's end.
  The source keeps the overflow of that comparison on purpose, so the law of a call has an exact
  boundary: it holds of a call if and only if the sum does not wrap (`CallLaw.iff`), and a history
  of such calls is a bump allocator (`Bump.Stacked`).
-/
import CangjieRuntime.Lib.Runs
import CangjieRuntime.Lib.Bump
import CangjieRuntime.Heap.RegionTable

set_option linter.unusedVariables false

namespace CangjieRuntime.Heap

open Runs

namespace RegionInfo

/-- `Alloc` on a region's record: the record, and the address; 0 if there is no room. -/
def alloc (m : UnitMetadata) (size : Nat) : UnitMetadata × Nat :=
  let limit := m.regionEnd
  let allocPtr := m.allocPtr
  let next := Words.add 64 allocPtr size
  if next ≤ limit then ({ m with allocPtr := next }, allocPtr) else (m, 0)

/-! ## Histories of calls -/

/-- What a successful call was given.  Its address is what the call returned, its size what the call
    asked for. -/
structure AllocBlock where
  address : Nat
  size : Nat
  deriving DecidableEq, Repr

/-- A region, and the blocks of its successful calls, the latest first. -/
structure AllocHistory where
  region : UnitMetadata
  blocks : List AllocBlock
  deriving DecidableEq, Repr

/-- One call of `Alloc`. -/
def AllocHistory.call (s : AllocHistory) (size : Nat) : AllocHistory :=
  let (region, address) := alloc s.region size
  { region := region
    blocks := if address = 0 then s.blocks else ⟨address, size⟩ :: s.blocks }

/-- A region of `nUnit` units from unit `u` on that `InitRegionInfo` just initialised, and any calls
    after that. -/
def allocMachine (layout : HeapLayout) (u nUnit : Nat) : System AllocHistory Nat where
  init s := u < layout.totalUnitCount ∧ u + nUnit ≤ layout.totalUnitCount ∧
    ∃ table uClass table',
      initRegionInfo layout table (layout.unitPtr u) nUnit uClass = .ok table' ∧
      s = ⟨table' (layout.unitPtr u), []⟩
  step s size s' := size < 2 ^ 64 ∧ s' = s.call size

/-! ## The law -/

/-- The history of a bump allocator of the addresses from `start` to `limit`. -/
structure BumpAllocated (start limit : Nat) (s : AllocHistory) : Prop where
  regionEnd : s.region.regionEnd = limit
  within : start ≤ s.region.allocPtr ∧ s.region.allocPtr ≤ limit
  inside : ∀ b ∈ s.blocks, start ≤ b.address ∧ b.address + b.size ≤ limit
  disjoint : s.blocks.Pairwise fun b c => Disjoint
    (Set.Ico b.address (b.address + b.size)) (Set.Ico c.address (c.address + c.size))

/-- What the next call does: the pointer does not go back, the call fails just when its size
    exceeds the room that is left, and a failing call changes nothing. -/
structure CallLaw (m : UnitMetadata) (size : Nat) : Prop where
  le : m.allocPtr ≤ (alloc m size).1.allocPtr
  zero_iff : (alloc m size).2 = 0 ↔ m.regionEnd - m.allocPtr < size
  unchanged : (alloc m size).2 = 0 → (alloc m size).1 = m

/-- The sum that `Alloc` compares does not wrap.  `Alloc` compares the wrapped sum with the end of
    the region, so that beyond this bound it takes a request for one that fits. -/
def SumFits (m : UnitMetadata) (size : Nat) : Prop := m.allocPtr + size < 2 ^ 64

instance (m : UnitMetadata) (size : Nat) : Decidable (SumFits m size) := Nat.decLt _ _

/-! ## One call -/

section Call

variable {m : UnitMetadata} {size : Nat}

theorem SumFits.alloc_eq (h : SumFits m size) : alloc m size =
    if m.allocPtr + size ≤ m.regionEnd then ({ m with allocPtr := m.allocPtr + size }, m.allocPtr)
    else (m, 0) := by
  rw [alloc, Words.add_eq h]

/-- A call whose sum wraps succeeds, and the pointer goes back. -/
theorem alloc_wraps (hsize : size < 2 ^ 64) (hptr : m.allocPtr < 2 ^ 64)
    (hle : m.allocPtr ≤ m.regionEnd) (h : ¬ SumFits m size) :
    alloc m size = ({ m with allocPtr := m.allocPtr + size - 2 ^ 64 }, m.allocPtr) := by
  unfold SumFits at h
  have hnext : Words.add 64 m.allocPtr size = m.allocPtr + size - 2 ^ 64 := by
    rw [Words.add]
    omega
  rw [alloc, hnext]
  exact if_pos (by omega)

/-- **One call.**  The law holds of a call if and only if its sum does not wrap. -/
theorem CallLaw.iff (hsize : size < 2 ^ 64) (hpos : m.allocPtr ≠ 0)
    (hle : m.allocPtr ≤ m.regionEnd) (hlt : m.regionEnd < 2 ^ 64) :
    CallLaw m size ↔ SumFits m size := by
  constructor
  · intro h
    by_contra hwrap
    have hback := h.le
    rw [alloc_wraps hsize (by omega) hle hwrap] at hback
    have : m.allocPtr ≤ m.allocPtr + size - 2 ^ 64 := hback
    omega
  · intro h
    by_cases hroom : m.allocPtr + size ≤ m.regionEnd
    · have heq := h.alloc_eq
      rw [if_pos hroom] at heq
      refine ⟨?_, ?_, ?_⟩
      · rw [heq]
        exact Nat.le_add_right _ _
      · rw [heq]
        constructor
        · intro hzero
          exact absurd hzero hpos
        · intro hexceeds
          omega
      · intro hzero
        rw [heq] at hzero
        exact absurd hzero hpos
    · have heq := h.alloc_eq
      rw [if_neg hroom] at heq
      refine ⟨?_, ?_, ?_⟩
      · rw [heq]
      · rw [heq]
        constructor
        · intro _
          omega
        · intro _
          rfl
      · intro _
        rw [heq]

end Call

/-! ## Every history -/

/-- The blocks fill the region from its start to the pointer. -/
structure AllocInv (layout : HeapLayout) (u nUnit : Nat) (s : AllocHistory) : Prop where
  unit : u < layout.totalUnitCount
  units : u + nUnit ≤ layout.totalUnitCount
  regionEnd : s.region.regionEnd = layout.unitStart (u + nUnit)
  le : s.region.allocPtr ≤ s.region.regionEnd
  stacked : Bump.Stacked AllocBlock.address AllocBlock.size (layout.unitStart u)
    s.region.allocPtr s.blocks

variable {layout : HeapLayout} {u nUnit : Nat} {s : AllocHistory}

theorem AllocInv.start_le (h : AllocInv layout u nUnit s) :
    layout.unitStart u ≤ s.region.allocPtr := by
  rw [h.stacked.position_eq]
  exact Nat.le_add_right _ _

/-- The table lies below the heap, so no unit starts at 0. -/
theorem AllocInv.allocPtr_ne_zero (h : AllocInv layout u nUnit s) : s.region.allocPtr ≠ 0 := by
  have hrecord := HeapLayout.record_fits h.unit
  have hstart := h.start_le
  simp only [HeapLayout.unitStart, UNIT_INFO_SIZE] at hrecord hstart
  omega

theorem AllocInv.regionEnd_lt (h : AllocInv layout u nUnit s) : s.region.regionEnd < 2 ^ 64 := by
  rw [h.regionEnd]
  exact HeapLayout.unit_fits h.units

theorem AllocInv.init (h : (allocMachine layout u nUnit).init s) : AllocInv layout u nUnit s := by
  obtain ⟨hu, hunits, table, uClass, table', hinit, rfl⟩ := h
  rw [initRegionInfo, getRegionStart_eq hu] at hinit
  obtain rfl := Except.ok.inj hinit
  have hend : Words.add 64 (layout.unitStart u) (Words.mul 64 nUnit UNIT_SIZE) =
      layout.unitStart (u + nUnit) := by
    have hfits := HeapLayout.unit_fits hunits
    rw [← HeapLayout.unitStart, HeapLayout.unitStart_add] at hfits
    rw [Words.mul_eq (by omega), Words.add_eq hfits, HeapLayout.unitStart_add]
  have hself : Function.update table (layout.unitPtr u) (initMetadata (table (layout.unitPtr u))
      (layout.unitStart u) nUnit uClass) (layout.unitPtr u) =
      initMetadata (table (layout.unitPtr u)) (layout.unitStart u) nUnit uClass :=
    Function.update_self _ _ _
  refine ⟨hu, hunits, ?_, ?_, ?_⟩
  · rw [hself, regionEnd_initMetadata, hend]
  · rw [hself, regionEnd_initMetadata, hend, HeapLayout.unitStart_add]
    exact Nat.le_add_right _ _
  · rw [hself]
    rfl

/-- A call whose sum does not wrap. -/
theorem AllocInv.call (h : AllocInv layout u nUnit s) {size : Nat} (hfits : SumFits s.region size) :
    AllocInv layout u nUnit (s.call size) := by
  rw [AllocHistory.call, hfits.alloc_eq]
  by_cases hroom : s.region.allocPtr + size ≤ s.region.regionEnd
  · rw [if_pos hroom]
    simp only [if_neg h.allocPtr_ne_zero]
    exact ⟨h.unit, h.units, h.regionEnd, hroom, h.stacked.push (a := ⟨_, size⟩) rfl⟩
  · rw [if_neg hroom]
    exact h

theorem allocMachine_invariant (layout : HeapLayout) (u nUnit : Nat) :
    ((allocMachine layout u nUnit).guarded fun s size => SumFits s.region size).Invariant
      (AllocInv layout u nUnit) where
  init := fun s h => AllocInv.init h
  step := by
    rintro s size s' h ⟨hfits, -, rfl⟩
    exact h.call hfits

theorem AllocInv.bumpAllocated (h : AllocInv layout u nUnit s) :
    BumpAllocated (layout.unitStart u) (layout.unitStart (u + nUnit)) s where
  regionEnd := h.regionEnd
  within := ⟨h.start_le, h.regionEnd ▸ h.le⟩
  inside := fun b hb => by
    obtain ⟨hlow, hhigh⟩ := h.stacked.bounds hb
    exact ⟨hlow, hhigh.trans (h.regionEnd ▸ h.le)⟩
  disjoint := h.stacked.disjoint

/-- **Bump allocation.**  After any calls whose sums did not wrap the region is a bump allocator's,
    and the law holds of the next call if and only if its sum does not wrap either. -/
theorem alloc_bumps (layout : HeapLayout) (u nUnit : Nat) {s : AllocHistory}
    (h : ((allocMachine layout u nUnit).guarded
      fun s size => SumFits s.region size).Reachable s) :
    BumpAllocated (layout.unitStart u) (layout.unitStart (u + nUnit)) s ∧
      ∀ size < 2 ^ 64, CallLaw s.region size ↔ SumFits s.region size := by
  have hinv := (allocMachine_invariant layout u nUnit).reachable h
  exact ⟨hinv.bumpAllocated, fun size hsize =>
    CallLaw.iff hsize hinv.allocPtr_ne_zero hinv.le hinv.regionEnd_lt⟩

/-- A heap of three units. -/
def threeUnits : HeapLayout := ⟨1048576, 3, by decide, by decide, by decide⟩

/-- The region that `InitRegionInfo` makes of the first unit of `threeUnits`. -/
def firstRegion : UnitMetadata :=
  initMetadata ⟨0, 0, 0, 0, 0, 0, 0, 0, 0⟩ 1048576 1 SMALL_SIZED_UNITS

theorem firstRegion_init : (allocMachine threeUnits 0 1).init ⟨firstRegion, []⟩ :=
  ⟨by decide, by decide, fun _ => ⟨0, 0, 0, 0, 0, 0, 0, 0, 0⟩, SMALL_SIZED_UNITS, _, rfl, rfl⟩

/-- A block, a call that exceeds the room, and a block that takes the rest of the region. -/
theorem alloc_bumps_unit : ∃ s : AllocHistory,
    ((allocMachine threeUnits 0 1).guarded fun s size => SumFits s.region size).Reachable s ∧
    s.blocks = [⟨1048640, 4032⟩, ⟨1048576, 64⟩] ∧
    BumpAllocated (threeUnits.unitStart 0) (threeUnits.unitStart 1) s ∧
    ∀ size < 2 ^ 64, CallLaw s.region size ↔ SumFits s.region size := by
  have h₀ : ((allocMachine threeUnits 0 1).guarded
      fun s size => SumFits s.region size).Reachable ⟨firstRegion, []⟩ := .init firstRegion_init
  have h₁ := h₀.step (e := 64) ⟨show SumFits _ _ by decide, by decide, rfl⟩
  have h₂ := h₁.step (e := 4096) ⟨show SumFits _ _ by decide, by decide, rfl⟩
  have h₃ := h₂.step (e := 4032) ⟨show SumFits _ _ by decide, by decide, rfl⟩
  obtain ⟨hbumped, hlaw⟩ := alloc_bumps threeUnits 0 1 h₃
  exact ⟨_, h₃, by decide, hbumped, hlaw⟩

/-- After a block of 64 bytes a call with size `2 ^ 64 - 32` succeeds and sets the pointer back by
    32 bytes; the next block overlaps the first one. -/
theorem alloc_overlaps : ¬ ∀ layout u nUnit s, (allocMachine layout u nUnit).Reachable s →
    BumpAllocated (layout.unitStart u) (layout.unitStart (u + nUnit)) s ∧
      ∀ size < 2 ^ 64, CallLaw s.region size := by
  intro hbump
  have h₀ : (allocMachine threeUnits 0 1).Reachable ⟨firstRegion, []⟩ := .init firstRegion_init
  have h₁ := h₀.step (e := 64) ⟨by decide, rfl⟩
  have h₂ := h₁.step (e := 2 ^ 64 - 32) ⟨by decide, rfl⟩
  have h₃ := h₂.step (e := 64) ⟨by decide, rfl⟩
  have hblocks : (((⟨firstRegion, []⟩ : AllocHistory).call 64).call (2 ^ 64 - 32)).call 64 =
      ⟨{ firstRegion with allocPtr := 1048672 },
        [⟨1048608, 64⟩, ⟨1048640, 2 ^ 64 - 32⟩, ⟨1048576, 64⟩]⟩ := by decide
  rw [hblocks] at h₃
  have hdisjoint := (hbump _ _ _ _ h₃).1.disjoint
  rw [List.pairwise_cons] at hdisjoint
  have hfirst := hdisjoint.1 ⟨1048576, 64⟩ (by decide)
  rw [Set.Ico_disjoint_Ico] at hfirst
  exact absurd hfirst (by decide)

end RegionInfo

end CangjieRuntime.Heap
