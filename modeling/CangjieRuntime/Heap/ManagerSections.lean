/-
  The lock-protected sections of the free region manager, one specification each.

  A section works on one tree and on the unit table.  Its specification says which units the tree
  gained or lost, that the tree keeps its invariant, which records may have been written (only
  those of units free in the tree afterwards, or of the region just made), and that the heads of
  all free blocks are recorded again.
-/
import CangjieRuntime.Heap.FreeRegionManager
import CangjieRuntime.Heap.RegionTable
import CangjieRuntime.Heap.TreeMerge
import CangjieRuntime.Heap.TreeTake

set_option linter.unusedVariables false

namespace CangjieRuntime.Heap

open SlotTree RegionInfo

namespace FreeRegionManager

variable {layout : HeapLayout}

/-- Every free block's head record describes the block.  The record of a head unit has the count of
    the block, which the manager writes each time the block changes. -/
def HeadsRecorded (layout : HeapLayout) (table : UnitTable) (tree : CartesianTree) : Prop :=
  ∀ n ∈ inorder tree.root, FreeHead layout table n.index n.count

/-- What every section leaves: the tree's invariant, records written only for units free in the
    tree or in `taken`, and recorded heads. -/
structure SectionOk (layout : HeapLayout) (tree tree' : CartesianTree) (table table' : UnitTable)
    (taken : Set Nat) : Prop where
  inv : tree'.Inv
  same : SameOutside layout (tree'.freeUnits ∪ taken) table table'
  heads : HeadsRecorded layout table tree → HeadsRecorded layout table' tree'

/-- A head record is at a unit of its block. -/
theorem index_mem_freeUnits {tree : CartesianTree} (h : tree.Inv) {n : CartesianNode}
    (hn : n ∈ inorder tree.root) : n.index ∈ tree.freeUnits := by
  have hpos := h.sound.pos n hn
  exact CartesianTree.mem_freeUnits hn ⟨Nat.le_refl _, by omega⟩

/-- Forgetting the recorded calls changes nothing else. -/
theorem inv_resetCalls {tree : CartesianTree} (h : tree.Inv) :
    ({ tree with regionCalls := [] } : CartesianTree).Inv :=
  ⟨⟨h.sound.coalesced, h.sound.pos, h.sound.bound, h.sound.total,
    ⟨h.sound.pool.nodup, h.sound.pool.below⟩⟩, h.heap⟩

/-- **A tree operation, on the table.**  Its calls do not fault, write only records of units that
    are free afterwards, and record the heads of all blocks. -/
theorem runTree_spec {α : Type} {tree tree' : CartesianTree} (table : UnitTable)
    (op : CartesianTree → Except Fault (CartesianTree × α)) {r : α}
    (hop : op { tree with regionCalls := [] } = .ok (tree', r)) (hinv : tree'.Inv)
    (hrec : CartesianTree.Recorded true { tree with regionCalls := [] } tree')
    (hfree : tree.freeUnits ⊆ Set.Iio layout.totalUnitCount)
    (hfree' : tree'.freeUnits ⊆ Set.Iio layout.totalUnitCount) :
    ∃ table', runTree layout tree table op = .ok (tree', table', r) ∧
      SectionOk layout tree tree' table table' ∅ := by
  obtain ⟨cs, hcs, hcov, hheads⟩ := hrec
  simp only [List.nil_append] at hcs
  obtain ⟨table', hres, hsame, hlast⟩ := performAll_spec cs hfree hfree' table hcov
  refine ⟨table', ?_, hinv, by rw [Set.union_empty]; exact hsame, fun hold n hn => ?_⟩
  · unfold runTree
    rw [hop]
    simp only [bind, Except.bind, hcs, hres]
  · have hnlt : n.index < layout.totalUnitCount := hfree' (index_mem_freeUnits hinv hn)
    rcases hheads rfl n hn with hsome | ⟨hnone, m, hm, hidx, hcount⟩
    · exact (hlast n.index hnlt).1 n.count hsome
    · have := hold m hm
      rw [hidx, hcount] at this
      exact this.congr ((hlast n.index hnlt).2 hnone)

/-- Taking units and stamping the region: what both sections of `TakeRegion` do. -/
theorem take_spec {tree : CartesianTree} (h : tree.Inv)
    (hfree : tree.freeUnits ⊆ Set.Iio layout.totalUnitCount) (table : UnitTable) (num : Nat) :
    ∃ tree' table', (runTree layout tree table (·.takeUnitsLowAddr num true) =
        .ok (tree', table', none) ∧ tree'.freeUnits = tree.freeUnits ∧
        SectionOk layout tree tree' table table' ∅) ∨
      ∃ idx, runTree layout tree table (·.takeUnitsLowAddr num true) =
          .ok (tree', table', some idx) ∧ HasBlock tree num ∧
        Set.Ico idx (idx + num) ⊆ tree.freeUnits ∧
        tree'.freeUnits = tree.freeUnits \ Set.Ico idx (idx + num) ∧
        SectionOk layout tree tree' table table' ∅ := by
  have hinv := inv_resetCalls h
  have hnone : ∀ op : CartesianTree → Except Fault (CartesianTree × Option Nat),
      op { tree with regionCalls := [] } = .ok ({ tree with regionCalls := [] }, none) →
      ∃ tree' table', runTree layout tree table op = .ok (tree', table', none) ∧
        tree'.freeUnits = tree.freeUnits ∧ SectionOk layout tree tree' table table' ∅ := by
    intro op hop
    obtain ⟨table', hres, hok⟩ := runTree_spec table op hop hinv
      (CartesianTree.Recorded.refl _ _) hfree hfree
    exact ⟨_, table', hres, rfl, hok⟩
  by_cases hnum : num = 0
  · obtain ⟨tree', table', hres, hunits, hok⟩ := hnone (·.takeUnitsLowAddr num true)
      (by simp [CartesianTree.takeUnitsLowAddr, hnum])
    exact ⟨tree', table', Or.inl ⟨hres, hunits, hok⟩⟩
  · rcases CartesianTree.takeUnitsLowAddr_spec hinv num true (by omega) with
      ⟨hop, -⟩ | ⟨tree', idx, hop, hinv', hsub, hunits, hrec, hblock, -⟩
    · obtain ⟨tree', table', hres, hunits, hok⟩ := hnone (·.takeUnitsLowAddr num true) hop
      exact ⟨tree', table', Or.inl ⟨hres, hunits, hok⟩⟩
    · have hfree' : tree'.freeUnits ⊆ Set.Iio layout.totalUnitCount := by
        rw [hunits]; exact Set.sdiff_subset.trans hfree
      obtain ⟨table', hres, hok⟩ := runTree_spec table (·.takeUnitsLowAddr num true) hop
        hinv' hrec hfree hfree'
      exact ⟨tree', table', Or.inr ⟨idx, hres, ⟨by omega, hblock⟩, hsub, hunits, hok⟩⟩

/-- What a section of `TakeRegion` did to its tree and to the table. -/
def TakeSection (layout : HeapLayout) (tree : CartesianTree) (table : UnitTable) (args : TakeArgs)
    (result : Except Fault (CartesianTree × UnitTable × Option (Nat × Nat))) : Prop :=
  ∃ tree' table', (result = .ok (tree', table', none) ∧ tree'.freeUnits = tree.freeUnits ∧
      SectionOk layout tree tree' table table' ∅) ∨
    ∃ idx, result = .ok (tree', table', some (idx, layout.unitPtr idx)) ∧
      HasBlock tree (args.num % 2 ^ 32) ∧ args.num < 2 ^ 32 ∧ 0 < args.num ∧
      Set.Ico idx (idx + args.num) ⊆ tree.freeUnits ∧
      tree'.freeUnits = tree.freeUnits \ Set.Ico idx (idx + args.num) ∧
      SectionOk layout tree tree' table table' (Set.Ico idx (idx + args.num)) ∧
      (args.uclass % 16 ≠ SUBORDINATE_UNIT → RegionRecords layout table' idx args.num)

/-- Stamping the region: the heads of the blocks that are still free are other records. -/
theorem SectionOk.initRegion {tree tree' : CartesianTree} {table table₁ : UnitTable} {idx num : Nat}
    (h : SectionOk layout tree tree' table table₁ ∅)
    (hfree : tree.freeUnits ⊆ Set.Iio layout.totalUnitCount) (hnum : 0 < num)
    (hsub : Set.Ico idx (idx + num) ⊆ tree.freeUnits)
    (hunits : tree'.freeUnits = tree.freeUnits \ Set.Ico idx (idx + num)) (role : UnitRole) :
    idx < layout.totalUnitCount ∧
    ∃ table', RegionInfo.initRegion layout table₁ idx num role = .ok (table', layout.unitPtr idx) ∧
      SectionOk layout tree tree' table table' (Set.Ico idx (idx + num)) ∧
      (role % 16 ≠ SUBORDINATE_UNIT → RegionRecords layout table' idx num) := by
  have hend : idx + num ≤ layout.totalUnitCount := by
    have : idx + num - 1 < layout.totalUnitCount := hfree (hsub ⟨by omega, by omega⟩)
    omega
  obtain ⟨table', hres, hsame, hrec, -⟩ := initRegion_spec hnum hend role table₁
  have hsame₁ := h.same
  rw [Set.union_empty] at hsame₁
  refine ⟨by omega, table', hres, ⟨h.inv, ?_, fun hold n hn => ?_⟩, hrec⟩
  · exact (hsame₁.mono Set.subset_union_left).trans (hsame.mono Set.subset_union_right)
  · have hmem := index_mem_freeUnits h.inv hn
    rw [hunits] at hmem
    exact (h.heads hold n hn).congr (hsame n.index (hfree hmem.1) hmem.2)

/-- **The dirty section of `TakeRegion`.**  It takes a block from the tree and stamps its records as
    those of a region, or leaves the tree as it is. -/
theorem takeFromDirty_spec {tree : CartesianTree} (h : tree.Inv)
    (hfree : tree.freeUnits ⊆ Set.Iio layout.totalUnitCount) (table : UnitTable) {args : TakeArgs}
    (hargs : HasBlock tree (args.num % 2 ^ 32) → args.num < 2 ^ 32) :
    TakeSection layout tree table args (takeFromDirty layout tree table args) := by
  obtain ⟨tree', table₁, ⟨hres, hunits, hok⟩ | ⟨idx, hres, hblock, hsub, hunits, hok⟩⟩ :=
    take_spec h hfree table (args.num % 2 ^ 32)
  · refine ⟨tree', table₁, Or.inl ⟨?_, hunits, hok⟩⟩
    simp only [takeFromDirty, hres, bind, Except.bind]
  · have hlt := hargs hblock
    have hmod := Nat.mod_eq_of_lt hlt
    have hnum := hblock.1
    rw [hmod] at hnum hsub hunits
    obtain ⟨hidx, table', hinit, hok', hrec⟩ :=
      hok.initRegion hfree hnum hsub hunits args.uclass
    refine ⟨tree', table', Or.inr ⟨idx, ?_, hblock, hlt, hnum, hsub, hunits, hok', hrec⟩⟩
    simp only [takeFromDirty, hres, clearUnits, getUnitAddress_eq hidx,
      hinit, bind, Except.bind]

/-- **The released section of `TakeRegion`.**  The same of the released tree. -/
theorem takeFromReleased_spec {tree : CartesianTree} (h : tree.Inv)
    (hfree : tree.freeUnits ⊆ Set.Iio layout.totalUnitCount) (table : UnitTable) {args : TakeArgs}
    (hargs : HasBlock tree (args.num % 2 ^ 32) → args.num < 2 ^ 32) :
    TakeSection layout tree table args (takeFromReleased layout tree table args) := by
  obtain ⟨tree', table₁, ⟨hres, hunits, hok⟩ | ⟨idx, hres, hblock, hsub, hunits, hok⟩⟩ :=
    take_spec h hfree table (args.num % 2 ^ 32)
  · refine ⟨tree', table₁, Or.inl ⟨?_, hunits, hok⟩⟩
    simp only [takeFromReleased, hres, bind, Except.bind]
  · have hlt := hargs hblock
    have hmod := Nat.mod_eq_of_lt hlt
    have hnum := hblock.1
    rw [hmod] at hnum hsub hunits
    obtain ⟨hidx, table', hinit, hok', hrec⟩ :=
      hok.initRegion hfree hnum hsub hunits args.uclass
    refine ⟨tree', table', Or.inr ⟨idx, ?_, hblock, hlt, hnum, hsub, hunits, hok', hrec⟩⟩
    simp only [takeFromReleased, hres, hinit, bind, Except.bind]
    cases args.expectPhysicalMem <;> simp [clearUnits, getUnitAddress_eq hidx, bind, Except.bind]

/-- **`MergeInsert` of units that are not free.**  The `RtFatal` is not reached.  The insert fails
    only where units are free already; the records of the block are written with it. -/
theorem insertOrFatal_spec {tree : CartesianTree} (h : tree.Inv)
    (hfree : tree.freeUnits ⊆ Set.Iio layout.totalUnitCount) (table : UnitTable) {idx num : Nat}
    (hnum : 0 < num) (hfit : Set.Ico idx (idx + num) ⊆ Set.Iio layout.totalUnitCount)
    (hdisj : Disjoint tree.freeUnits (Set.Ico idx (idx + num))) :
    ∃ tree' table', insertOrFatal layout tree table idx num = .ok (tree', table') ∧
      tree'.freeUnits = tree.freeUnits ∪ Set.Ico idx (idx + num) ∧
      SectionOk layout tree tree' table table' ∅ := by
  have hbound : idx + num < 2 ^ 32 := by
    have hlast : idx + num - 1 < layout.totalUnitCount := hfit ⟨by omega, by omega⟩
    have := layout.idx_fits
    simp only [INVALID_IDX] at this
    omega
  rcases CartesianTree.mergeInsert_spec (inv_resetCalls h) true hnum hbound with
    ⟨-, hover⟩ | ⟨tree', hop, hinv', -, hunits, hrec, -⟩
  · exact absurd hdisj hover
  · have hfree' : tree'.freeUnits ⊆ Set.Iio layout.totalUnitCount := by
      rw [hunits]; exact Set.union_subset hfree hfit
    obtain ⟨table', hres, hok⟩ := runTree_spec table (·.mergeInsert idx num true) hop hinv'
      hrec hfree hfree'
    exact ⟨tree', table', by simp [insertOrFatal, hres, bind, Except.bind], hunits, hok⟩

/-- The dirty section of `ReleaseGarbageRegions`, when there is a root: the block of the root. -/
theorem releaseRoot_node {tree : CartesianTree} (h : tree.Inv)
    (hfree : tree.freeUnits ⊆ Set.Iio layout.totalUnitCount) (table : UnitTable)
    {n : CartesianNode} {l r : BinaryTree CartesianNode} (hroot : tree.root = .node n l r) :
    ∃ tree' table', releaseRoot layout tree table = .ok (tree', table', some (n.index, n.count)) ∧
      tree'.freeUnits = tree.freeUnits \ Set.Ico n.index (n.index + n.count) ∧
      inorder tree'.root = inorder l ++ inorder r ∧
      SectionOk layout tree tree' table table' ∅ := by
  obtain ⟨tree', hop, hinv', hunits, hrec, -, hinorder⟩ :=
    CartesianTree.releaseRootNode_spec (inv_resetCalls h) hroot true
  have hfree' : tree'.freeUnits ⊆ Set.Iio layout.totalUnitCount := by
    rw [hunits]; exact Set.sdiff_subset.trans hfree
  obtain ⟨table', hres, hok⟩ := runTree_spec table
    (fun t => t.releaseRootNode.map fun t => (t, ())) (by rw [hop]; rfl) hinv' hrec
    hfree hfree'
  refine ⟨tree', table', ?_, hunits, hinorder, hok⟩
  unfold releaseRoot
  rw [hroot]
  simp only [hres, bind, Except.bind]

/-- **The dirty section of `ReleaseGarbageRegions`.**  The root's block comes out of the tree, as
    the caller's, or the tree is empty and nothing does. -/
theorem releaseRoot_spec {tree : CartesianTree} (h : tree.Inv)
    (hfree : tree.freeUnits ⊆ Set.Iio layout.totalUnitCount) (table : UnitTable) :
    ∃ tree' table', (releaseRoot layout tree table = .ok (tree', table', none) ∧
        tree'.freeUnits = tree.freeUnits ∧ SectionOk layout tree tree' table table' ∅) ∨
      ∃ idx num, releaseRoot layout tree table = .ok (tree', table', some (idx, num)) ∧ 0 < num ∧
        Set.Ico idx (idx + num) ⊆ tree.freeUnits ∧
        tree'.freeUnits = tree.freeUnits \ Set.Ico idx (idx + num) ∧
        SectionOk layout tree tree' table table' ∅ := by
  cases hroot : tree.root with
  | nil =>
    refine ⟨tree, table, Or.inl ⟨?_, rfl, h, SameOutside.refl _ _, fun hold => hold⟩⟩
    unfold releaseRoot
    rw [hroot]
  | node n l r =>
    obtain ⟨tree', table', hres, hunits, -, hok⟩ := releaseRoot_node h hfree table hroot
    have hn : n ∈ inorder tree.root := by rw [hroot]; simp
    exact ⟨tree', table', Or.inr ⟨n.index, n.count, hres, h.sound.pos n hn,
      CartesianTree.mem_freeUnits hn, hunits, hok⟩⟩

end FreeRegionManager

end CangjieRuntime.Heap
