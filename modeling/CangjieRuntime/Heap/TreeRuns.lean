/-
  Whole runs of the Cartesian tree's operations.

  A run starts from the empty tree and applies any finite sequence of the operations, each within
  its precondition, next to a model: the plain set of free units.  The model knows nothing of
  nodes; it adds what an insert that returned `true` was given, and removes what a take returned,
  the root's block on a release, and everything on a clear.  `reachable_represents` is the
  refinement: in every reachable state the tree represents exactly that set, coalesced and heap
  ordered, and no operation within its precondition can fault.
-/
import CangjieRuntime.Lib.Runs
import CangjieRuntime.Heap.TreeMerge
import CangjieRuntime.Heap.TreeTake

set_option linter.unusedVariables false

namespace CangjieRuntime.Heap

open SlotTree Blocks Runs

namespace CartesianTree

/-! ## The operations and the model set -/

/-- An operation of the tree, with its arguments. -/
inductive Op
  | mergeInsert (idx num : Nat) (refreshRegionInfo : Bool)
  | takeUnits (num : Nat) (refreshRegionInfo : Bool)
  | takeUnitsLowAddr (num : Nat) (refreshRegionInfo : Bool)
  | allocateLowestAddressFromNode (nodeSlot : Slot) (count : Nat)
  | releaseRootNode
  | clearTree
  deriving DecidableEq, Repr

/-- What an operation returns. -/
inductive Result
  | inserted (ok : Bool)
  | taken (idx : Option Nat)
  | done
  deriving DecidableEq, Repr

/-- Run one operation. -/
def Op.apply (t : CartesianTree) : Op → Except Fault (CartesianTree × Result)
  | .mergeInsert idx num f => (t.mergeInsert idx num f).map fun x => (x.1, .inserted x.2)
  | .takeUnits num f => (t.takeUnits num f).map fun x => (x.1, .taken x.2)
  | .takeUnitsLowAddr num f => (t.takeUnitsLowAddr num f).map fun x => (x.1, .taken x.2)
  | .allocateLowestAddressFromNode nodeSlot count =>
    (t.allocateLowestAddressFromNode nodeSlot count).map fun x => (x.1, .taken x.2)
  | .releaseRootNode => t.releaseRootNode.map fun t' => (t', .done)
  | .clearTree => t.clearTree.map fun t' => (t', .done)

/-- The precondition: a non-empty block whose end is a 32-bit index, a slot with a live node, a
    non-empty tree to release from. -/
def Op.Allowed (t : CartesianTree) : Op → Prop
  | .mergeInsert idx num _ => 0 < num ∧ idx + num < 2 ^ 32
  | .takeUnits _ _ => True
  | .takeUnitsLowAddr _ _ => True
  | .allocateLowestAddressFromNode nodeSlot count => subtree t.root nodeSlot ≠ .nil ∧ 0 < count
  | .releaseRootNode => t.root ≠ .nil
  | .clearTree => True

/-- The units an operation that returned `r` put in. -/
def Op.added : Op → Result → Set Nat
  | .mergeInsert idx num _, .inserted true => Set.Ico idx (idx + num)
  | _, _ => ∅

/-- The units an operation that returned `r` took out of `t`. -/
def Op.removed (t : CartesianTree) : Op → Result → Set Nat
  | .takeUnits num _, .taken (some idx) => Set.Ico idx (idx + num)
  | .takeUnitsLowAddr num _, .taken (some idx) => Set.Ico idx (idx + num)
  | .allocateLowestAddressFromNode _ count, .taken (some idx) => Set.Ico idx (idx + count)
  | .releaseRootNode, .done =>
    match t.root with
    | .nil => ∅
    | .node n _ _ => Set.Ico n.index (n.index + n.count)
  | .clearTree, .done => t.freeUnits
  | _, _ => ∅

/-- The tree next to the model set. -/
def machine : System (CartesianTree × Set Nat) Op where
  init s := ∃ base, s = (init base, ∅)
  step s op s' := op.Allowed s.1 ∧ ∃ r, op.apply s.1 = .ok (s'.1, r) ∧
    s'.2 = (s.2 ∪ op.added r) \ op.removed s.1 r

/-! ## One operation -/

/-- What one operation does: no fault, the invariant again, free units gained and lost as the
    model says; what is gained was not free, what is lost was; and no slot of the pool is lost. -/
theorem apply_spec {t : CartesianTree} (h : t.Inv) {op : Op} (hop : op.Allowed t) :
    ∃ t' r, op.apply t = .ok (t', r) ∧ t'.Inv ∧
      t'.freeUnits = (t.freeUnits ∪ op.added r) \ op.removed t r ∧
      Disjoint t.freeUnits (op.added r) ∧ op.removed t r ⊆ t.freeUnits ∧ PoolStep t t' := by
  -- the three takes share one case analysis
  have htake : ∀ (op : Op) (num : Nat) (f : Bool) (res : Except Fault (CartesianTree × Option Nat)),
      op.apply t = res.map (fun x => (x.1, .taken x.2)) → TakeOk t num f res →
      (∀ r, op.added r = ∅) → op.removed t (.taken none) = ∅ →
      (∀ idx, op.removed t (.taken (some idx)) = Set.Ico idx (idx + num)) →
      ∃ t' r, op.apply t = .ok (t', r) ∧ t'.Inv ∧
        t'.freeUnits = (t.freeUnits ∪ op.added r) \ op.removed t r ∧
        Disjoint t.freeUnits (op.added r) ∧ op.removed t r ⊆ t.freeUnits ∧ PoolStep t t' := by
    intro op num f res happly hok hadd hnone hsome
    rcases hok with ⟨rfl, -⟩ | ⟨t', idx, rfl, hinv, hsub, hunits, -, -, hpool⟩
    · exact ⟨t, .taken none, happly, h, by simp [hadd, hnone], by simp [hadd], by simp [hnone],
        PoolStep.refl t⟩
    · exact ⟨t', .taken (some idx), happly, hinv, by simp [hadd, hsome, hunits], by simp [hadd],
        by rw [hsome]; exact hsub, hpool⟩
  have hzero : ∀ (res : Except Fault (CartesianTree × Option Nat)), res = .ok (t, none) →
      ∀ op : Op, op.apply t = res.map (fun x => (x.1, .taken x.2)) →
      (∀ r, op.added r = ∅) → op.removed t (.taken none) = ∅ →
      ∃ t' r, op.apply t = .ok (t', r) ∧ t'.Inv ∧
        t'.freeUnits = (t.freeUnits ∪ op.added r) \ op.removed t r ∧
        Disjoint t.freeUnits (op.added r) ∧ op.removed t r ⊆ t.freeUnits ∧ PoolStep t t' := by
    rintro res rfl op happly hadd hnone
    exact ⟨t, .taken none, happly, h, by simp [hadd, hnone], by simp [hadd], by simp [hnone],
      PoolStep.refl t⟩
  cases op with
  | mergeInsert idx num f =>
    obtain ⟨hnum, hbound⟩ := hop
    rcases mergeInsert_spec h f hnum hbound with ⟨hres, -⟩ | ⟨t', hres, hinv, hdisj, hunits, -, hpool⟩
    · exact ⟨t, .inserted false, by simp [Op.apply, hres, Except.map], h,
        by simp [Op.added, Op.removed], by simp [Op.added], by simp [Op.removed], PoolStep.refl t⟩
    · exact ⟨t', .inserted true, by simp [Op.apply, hres, Except.map], hinv,
        by simp [Op.added, Op.removed, hunits], hdisj, by simp [Op.removed], hpool⟩
  | takeUnits num f =>
    by_cases hnum : num = 0
    · exact hzero _ (by simp [takeUnits, hnum]) (.takeUnits num f) rfl (fun r => rfl) rfl
    · exact htake (.takeUnits num f) num f _ rfl (takeUnits_spec h num f (by omega))
        (fun r => rfl) rfl (fun idx => rfl)
  | takeUnitsLowAddr num f =>
    by_cases hnum : num = 0
    · exact hzero _ (by simp [takeUnitsLowAddr, hnum]) (.takeUnitsLowAddr num f) rfl (fun r => rfl)
        rfl
    · exact htake (.takeUnitsLowAddr num f) num f _ rfl
        (takeUnitsLowAddr_spec h num f (by omega)) (fun r => rfl) rfl (fun idx => rfl)
  | allocateLowestAddressFromNode nodeSlot count =>
    obtain ⟨hlive, hcount⟩ := hop
    cases hn : subtree t.root nodeSlot with
    | nil => exact absurd hn hlive
    | node n l r =>
      rcases allocateLowestAddressFromNode_spec h hn count hcount with
        ⟨hres, -⟩ | ⟨t', hres, hinv, hsub, hunits, -, hpool⟩
      · exact hzero _ hres (.allocateLowestAddressFromNode nodeSlot count) rfl (fun r => rfl) rfl
      · exact ⟨t', .taken (some n.index), by simp [Op.apply, hres, Except.map], hinv,
          by simp [Op.added, Op.removed, hunits], by simp [Op.added], hsub, hpool⟩
  | releaseRootNode =>
    cases hn : t.root with
    | nil => exact absurd hn hop
    | node n l r =>
      obtain ⟨t', hres, hinv, hunits, -, hpool, -⟩ := releaseRootNode_spec h hn false
      have hnin : n ∈ inorder t.root := by rw [hn]; simp
      refine ⟨t', .done, by simp [Op.apply, hres, Except.map], hinv, ?_, by simp [Op.added], ?_,
        hpool⟩
      · simp [Op.added, Op.removed, hn, hunits]
      · simp only [Op.removed, hn]
        exact mem_freeUnits hnin
  | clearTree =>
    obtain ⟨t', hres, hinv, hunits, -, hpool⟩ := clearTree_spec h false
    exact ⟨t', .done, by simp [Op.apply, hres, Except.map], hinv,
      by simp [Op.added, Op.removed, hunits], by simp [Op.added], by simp [Op.removed], hpool⟩

/-! ## Every run -/

/-- The invariant of the runs: the tree's own, and the tree holds the model set. -/
theorem machine_invariant : machine.Invariant fun s => s.1.Inv ∧ s.1.freeUnits = s.2 where
  init := by
    rintro s ⟨base, rfl⟩
    exact ⟨inv_init base, by simp [init, freeUnits]⟩
  step := by
    rintro s op s' ⟨hinv, hunits⟩ ⟨hop, r, hres, hmodel⟩
    obtain ⟨t', r', hres', hinv', hunits', -⟩ := apply_spec hinv hop
    rw [hres'] at hres
    obtain ⟨h1, rfl⟩ := Prod.mk.inj (Except.ok.inj hres)
    rw [← h1]
    exact ⟨hinv', by rw [hunits', hmodel, hunits]⟩

/-- The tree represents the set `free` of units, and can go on doing so. -/
structure Represents (t : CartesianTree) (free : Set Nat) : Prop where
  /-- The blocks are strictly increasing and disjoint, and no two of them touch. -/
  ordered : (inorder t.root).Pairwise fun a b => a.index + a.count < b.index
  /-- No block is empty. -/
  nonempty : ∀ n ∈ inorder t.root, 0 < n.count
  /-- Every count is at least its children's. -/
  heap : HeapOrdered CartesianNode.count t.root
  /-- The running total is the sum of the counts. -/
  total : t.totalCount = ((inorder t.root).map CartesianNode.count).sum
  /-- The blocks cover the set. -/
  units : {u | ∃ n ∈ inorder t.root, n.index ≤ u ∧ u < n.index + n.count} = free
  /-- No operation within its precondition stops at `abort()` or a null pointer; it puts in only
      units that were not free and takes out only units that were. -/
  safe : ∀ op : Op, op.Allowed t → ∃ t' r, op.apply t = .ok (t', r) ∧
    Disjoint free (op.added r) ∧ op.removed t r ⊆ free

/-- **The Cartesian tree refines the set of free units**, in every state that a finite sequence of
    operations reaches from the empty tree.  The invariant says that the blocks are in order and
    apart and that the counts are a heap; each operation has one lemma that says what it does to the
    blocks and that it keeps the invariant. -/
theorem reachable_represents {t : CartesianTree} {free : Set Nat}
    (h : machine.Reachable (t, free)) : Represents t free := by
  obtain ⟨hinv, hunits⟩ := machine_invariant.reachable h
  refine ⟨hinv.sound.coalesced, hinv.sound.pos, hinv.heap, hinv.sound.total, hunits, ?_⟩
  intro op hop
  obtain ⟨t', r, hres, -, -, hadd, hremove, -⟩ := apply_spec hinv hop
  simp only at hunits
  exact ⟨t', r, hres, by rw [← hunits]; exact hadd, by rw [← hunits]; exact hremove⟩

/-- The block `[10, 13)` extended by `[13, 15)`. -/
theorem reachable_represents_extended :
    Represents
      { totalCount := 5, root := .node ⟨0, 10, 5⟩ .nil .nil, nodeAllocator := ⟨[], 24⟩,
        regionCalls := [.initFreeRegion 10 3, .initFreeRegion 10 5] }
      ((((∅ ∪ Set.Ico 10 13) \ ∅) ∪ Set.Ico 13 15) \ ∅) := by
  have hfirst : machine.Reachable
      ({ totalCount := 3, root := .node ⟨0, 10, 3⟩ .nil .nil, nodeAllocator := ⟨[], 24⟩,
         regionCalls := [.initFreeRegion 10 3] }, (∅ ∪ Set.Ico 10 13) \ ∅) :=
    .step (e := .mergeInsert 10 3 true) (.init ⟨0, rfl⟩)
      ⟨by simp [Op.Allowed], .inserted true, rfl, rfl⟩
  exact reachable_represents (.step (e := .mergeInsert 13 2 true) hfirst
    ⟨by simp [Op.Allowed], .inserted true, rfl, rfl⟩)

end CartesianTree

end CangjieRuntime.Heap
