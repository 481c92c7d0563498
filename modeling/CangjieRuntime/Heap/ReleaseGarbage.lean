/-
  One call of `ReleaseGarbageRegions`, run without interference.

  The loop releases the root of the dirty tree, merges its block into the released tree, and reads
  the dirty bytes again.  What it may do is said by `Drains`: each round takes one block of largest
  count out of the dirty blocks, and only while more than the target is left.  The rounds are
  counted by the dirty blocks, so a call ends after one round more than there are blocks
  (`releaseLoop`), and no addition of byte counts wraps because the blocks are disjoint.
-/
import CangjieRuntime.Heap.ManagerSections
import CangjieRuntime.Heap.TakeRegion

set_option linter.unusedVariables false

namespace CangjieRuntime.Heap

open SlotTree RegionInfo Blocks

namespace FreeRegionManager

variable {layout : HeapLayout} {τ : Type}

/-! ## Statement -/

/-- The blocks of a tree in address order, as index and count. -/
def blockList (tree : CartesianTree) : List (Nat × Nat) :=
  (inorder tree.root).map fun n => (n.index, n.count)

/-- The bytes of a sequence of blocks. -/
def bytes (blocks : List (Nat × Nat)) : Nat := total Prod.snd blocks * UNIT_SIZE

/-- The units of a sequence of blocks. -/
def units (blocks : List (Nat × Nat)) : Set Nat := span Prod.fst Prod.snd blocks

/-- Blocks leave the list one after the other, each of the largest count left, while more bytes are
    left than the target; `moved` are the blocks that left, in that order, and `rest` are the
    others. -/
inductive Drains (target : Nat) :
    List (Nat × Nat) → List (Nat × Nat) → List (Nat × Nat) → Prop
  | done {rest : List (Nat × Nat)} (hdone : bytes rest ≤ target) : Drains target rest [] rest
  | move {before after moved rest : List (Nat × Nat)} {block : Nat × Nat}
      (hmore : target < bytes (before ++ block :: after))
      (hmax : ∀ other ∈ before ++ block :: after, other.2 ≤ block.2)
      (hrest : Drains target (before ++ after) moved rest) :
      Drains target (before ++ block :: after) (block :: moved) rest

/-- What the trees of a manager satisfy between calls: their invariants, no unit in both, and only
    units of the heap. -/
structure TreesApart (layout : HeapLayout) (s : State τ) : Prop where
  dirtyInv : s.dirty.Inv
  releasedInv : s.released.Inv
  disjoint : Disjoint s.dirty.freeUnits s.released.freeUnits
  inHeap : s.dirty.freeUnits ∪ s.released.freeUnits ⊆ Set.Iio layout.totalUnitCount

/-- `moved` went from the dirty tree of `s` to the released tree of `s'`. -/
structure MovesBlocks (layout : HeapLayout) (s s' : State τ) (target : Nat)
    (moved : List (Nat × Nat)) : Prop where
  trees : TreesApart layout s'
  drains : Drains target (blockList s.dirty) moved (blockList s'.dirty)
  fromDirty : units moved ⊆ s.dirty.freeUnits
  dirtyUnits : s'.dirty.freeUnits = s.dirty.freeUnits \ units moved
  releasedUnits : s'.released.freeUnits = s.released.freeUnits ∪ units moved
  ends : bytes (blockList s'.dirty) ≤ target ∨ s'.dirty.root = .nil

/-- The two free sets together are the same. -/
theorem MovesBlocks.union_eq {s s' : State τ} {target : Nat} {moved : List (Nat × Nat)}
    (h : MovesBlocks layout s s' target moved) : s'.dirty.freeUnits ∪ s'.released.freeUnits =
      s.dirty.freeUnits ∪ s.released.freeUnits := by
  rw [h.dirtyUnits, h.releasedUnits, Set.union_comm s.released.freeUnits, ← Set.union_assoc,
    Set.sdiff_union_of_subset h.fromDirty]

section Run

variable [DecidableEq τ]

/-- One round of the loop, from its test to the read at its end. -/
def releaseRound (t : τ) : List (Action τ) := [.releaseRoot t, .mergeReleased t, .readDirty t]

/-- A call of `ReleaseGarbageRegions`, given `n` rounds. -/
def releaseGarbageRegionsRun (layout : HeapLayout) (s : State τ) (t : τ) (target n : Nat) :
    Except Fault (State τ) :=
  (.releaseGarbageRegions t target :: (List.replicate n (releaseRound t)).flatten).foldlM
    (exec layout) s

end Run

/-! ## Bytes -/

theorem total_blockList (tree : CartesianTree) :
    total Prod.snd (blockList tree) = total CartesianNode.count (inorder tree.root) := by
  simp only [total, blockList, List.map_map]
  rfl

/-- `GetTotalCount() * UNIT_SIZE` does not wrap. -/
theorem dirtyBytes_eq {tree : CartesianTree} (h : tree.Inv) :
    dirtyBytes tree = bytes (blockList tree) := by
  have hlt := h.sound.totalCount_lt
  rw [dirtyBytes, Words.mul_eq (by simp only [UNIT_SIZE]; omega), bytes, total_blockList,
    h.sound.total]

theorem bytes_blockList_lt {tree : CartesianTree} (h : tree.Inv) :
    bytes (blockList tree) < 2 ^ 64 := by
  have hlt := h.sound.totalCount_lt
  rw [bytes, total_blockList, ← h.sound.total]
  simp only [UNIT_SIZE]
  omega

theorem bytes_cons (block : Nat × Nat) (blocks : List (Nat × Nat)) :
    bytes (block :: blocks) = block.2 * UNIT_SIZE + bytes blocks := by
  rw [bytes, total_cons, Nat.add_mul, bytes]

/-- Taking a block out of the middle takes its bytes. -/
theorem bytes_middle (before after : List (Nat × Nat)) (block : Nat × Nat) :
    bytes (before ++ block :: after) = block.2 * UNIT_SIZE + bytes (before ++ after) := by
  simp only [bytes, total_append, total_cons]
  ring

theorem units_cons (block : Nat × Nat) (blocks : List (Nat × Nat)) :
    units (block :: blocks) = Set.Ico block.1 (block.1 + block.2) ∪ units blocks :=
  span_cons block blocks

/-! ## One round -/

section Loop

variable [DecidableEq τ] {s : State τ} {t : τ} {target : Nat}

/-- A round of a call that has returned changes nothing. -/
theorem exec_round_idle {r : Returned} (hpc : s.pc t = .idle r) :
    (releaseRound t).foldlM (exec layout) s = .ok s := by
  have hsame : ∀ a ∈ releaseRound t, exec layout s a = .ok s := by
    intro a ha
    simp only [releaseRound, List.mem_cons, List.not_mem_nil, or_false] at ha
    rcases ha with rfl | rfl | rfl <;> simp only [exec, hpc]
  simp only [releaseRound, List.mem_cons, List.not_mem_nil, or_false, forall_eq_or_imp,
    forall_eq] at hsame
  obtain ⟨h₁, h₂, h₃⟩ := hsame
  simp only [releaseRound, List.foldlM_cons, List.foldlM_nil, h₁, h₂, h₃, bind, Except.bind]
  rfl

/-- Any number of rounds after the return. -/
theorem rounds_idle {r : Returned} (hpc : s.pc t = .idle r) (n : Nat) :
    (List.replicate n (releaseRound t)).flatten.foldlM (exec layout) s = .ok s := by
  induction n with
  | zero => rfl
  | succ n ih =>
    rw [List.replicate_succ, List.flatten_cons, List.foldlM_append, exec_round_idle hpc]
    exact ih

/-- **The round that ends the loop.**  The bytes that are left are not above the target, and so the
    call returns what it has released. -/
theorem round_stops {releasedBytes dirtyBytes : Nat}
    (hpc : s.pc t = .releaseTest target releasedBytes dirtyBytes) (hle : dirtyBytes ≤ target) :
    (releaseRound t).foldlM (exec layout) s = .ok (s.goto t (.idle (.bytes releasedBytes))) := by
  have hidle : (s.goto t (.idle (.bytes releasedBytes))).pc t = .idle (.bytes releasedBytes) :=
    Function.update_self _ _ _
  have hfirst : exec layout s (.releaseRoot t) =
      .ok (s.goto t (.idle (.bytes releasedBytes))) := by
    simp only [exec, hpc, if_neg (Nat.not_lt.mpr hle)]
  have hmerge : exec layout (s.goto t (.idle (.bytes releasedBytes))) (.mergeReleased t) =
      .ok (s.goto t (.idle (.bytes releasedBytes))) := by simp only [exec, hidle]
  have hread : exec layout (s.goto t (.idle (.bytes releasedBytes))) (.readDirty t) =
      .ok (s.goto t (.idle (.bytes releasedBytes))) := by simp only [exec, hidle]
  simp only [releaseRound, List.foldlM_cons, List.foldlM_nil, hfirst, hmerge, hread, bind,
    Except.bind]
  rfl

/-- **The round that moves a block.**  The root of the dirty tree is a block of largest count; it
    leaves the dirty tree and joins the released one. -/
theorem round_moves (h : TreesApart layout s) {releasedBytes : Nat}
    (hpc : s.pc t = .releaseTest target releasedBytes (dirtyBytes s.dirty))
    (hmore : target < dirtyBytes s.dirty)
    (hsum : releasedBytes + bytes (blockList s.dirty) < 2 ^ 64) :
    ∃ s' before after block, (releaseRound t).foldlM (exec layout) s = .ok s' ∧
      s'.pc t = .releaseTest target (releasedBytes + block.2 * UNIT_SIZE) (dirtyBytes s'.dirty) ∧
      blockList s.dirty = before ++ block :: after ∧ blockList s'.dirty = before ++ after ∧
      (∀ other ∈ blockList s.dirty, other.2 ≤ block.2) ∧
      s'.dirty.freeUnits = s.dirty.freeUnits \ Set.Ico block.1 (block.1 + block.2) ∧
      s'.released.freeUnits = s.released.freeUnits ∪ Set.Ico block.1 (block.1 + block.2) ∧
      Set.Ico block.1 (block.1 + block.2) ⊆ s.dirty.freeUnits ∧ TreesApart layout s' := by
  obtain ⟨hdirtyHeap, hreleasedHeap⟩ := Set.union_subset_iff.mp h.inHeap
  cases hroot : s.dirty.root with
  | nil =>
    -- an empty tree has no bytes
    rw [dirtyBytes_eq h.dirtyInv, blockList, hroot] at hmore
    simp [bytes] at hmore
  | node n l r =>
    have hn : n ∈ inorder s.dirty.root := by rw [hroot]; simp
    have hblocks : blockList s.dirty = (inorder l).map (fun n => (n.index, n.count)) ++
        (n.index, n.count) :: (inorder r).map (fun n => (n.index, n.count)) := by
      simp only [blockList, hroot, inorder_node, List.map_append, List.map_cons]
    have hunits := CartesianTree.mem_freeUnits hn
    obtain ⟨dirty, table₁, hrelease, hdirtyUnits, hinorder, hdirtyOk⟩ :=
      releaseRoot_node h.dirtyInv hdirtyHeap s.table hroot
    obtain ⟨released, table₂, hinsert, hreleasedUnits, hreleasedOk⟩ :=
      insertOrFatal_spec h.releasedInv hreleasedHeap table₁ (h.dirtyInv.sound.pos n hn)
        (hunits.trans hdirtyHeap) (h.disjoint.symm.mono_right hunits)
    have hbytes : Words.add 64 releasedBytes (Words.mul 64 n.count UNIT_SIZE) =
        releasedBytes + n.count * UNIT_SIZE := by
      rw [hblocks, bytes_middle, ← Nat.add_assoc] at hsum
      have hlt : releasedBytes + n.count * UNIT_SIZE < 2 ^ 64 :=
        Nat.lt_of_le_of_lt (Nat.le_add_right _ _) hsum
      rw [Words.mul_eq (Nat.lt_of_le_of_lt (Nat.le_add_left _ _) hlt), Words.add_eq hlt]
    let s₁ : State τ :=
      { s with dirty := dirty, table := table₁ }.goto t
        (.releaseMerge target releasedBytes n.index n.count)
    let s₂ : State τ :=
      { s₁ with released := released, table := table₂ }.goto t
        (.releaseRead target (releasedBytes + n.count * UNIT_SIZE))
    let s₃ : State τ :=
      s₂.goto t (.releaseTest target (releasedBytes + n.count * UNIT_SIZE) (dirtyBytes dirty))
    have hpc₁ : s₁.pc t = .releaseMerge target releasedBytes n.index n.count :=
      Function.update_self _ _ _
    have hpc₂ : s₂.pc t = .releaseRead target (releasedBytes + n.count * UNIT_SIZE) :=
      Function.update_self _ _ _
    have hfirst : exec layout s (.releaseRoot t) = .ok s₁ := by
      simp only [exec, hpc, if_pos hmore, hrelease, bind, Except.bind]
      rfl
    have hmerge : exec layout s₁ (.mergeReleased t) = .ok s₂ := by
      have hinsert' : insertOrFatal layout s₁.released s₁.table n.index n.count =
          .ok (released, table₂) := hinsert
      simp only [exec, hpc₁, hinsert', bind, Except.bind, hbytes]
      rfl
    have hread : exec layout s₂ (.readDirty t) = .ok s₃ := by
      simp only [exec, hpc₂]
      rfl
    refine ⟨s₃, _, _, (n.index, n.count), ?_, Function.update_self _ _ _, hblocks, ?_, ?_,
      hdirtyUnits, hreleasedUnits, hunits, ⟨hdirtyOk.inv, hreleasedOk.inv, ?_, ?_⟩⟩
    · simp only [releaseRound, List.foldlM_cons, List.foldlM_nil, hfirst, hmerge, hread, bind,
        Except.bind]
      rfl
    · show (inorder dirty.root).map _ = _
      rw [hinorder, List.map_append]
    · -- the root of a heap carries the largest count
      intro other hother
      obtain ⟨m, hm, rfl⟩ := List.mem_map.mp hother
      have hle := h.dirtyInv.heap.le_topKey m hm
      rw [hroot] at hle
      exact hle
    · show Disjoint dirty.freeUnits released.freeUnits
      rw [hdirtyUnits, hreleasedUnits]
      exact Set.disjoint_union_right.mpr
        ⟨h.disjoint.mono_left Set.sdiff_subset, Set.disjoint_sdiff_left⟩
    · show dirty.freeUnits ∪ released.freeUnits ⊆ _
      rw [hdirtyUnits, hreleasedUnits]
      exact Set.union_subset (Set.sdiff_subset.trans hdirtyHeap)
        (Set.union_subset hreleasedHeap (hunits.trans hdirtyHeap))

/-! ## The loop -/

omit [DecidableEq τ] in
/-- The blocks moved by a first round and by the rounds after it. -/
theorem MovesBlocks.cons {s₁ s' : State τ} {before after moved : List (Nat × Nat)} {block : Nat × Nat}
    (hblocks : blockList s.dirty = before ++ block :: after)
    (hblocks₁ : blockList s₁.dirty = before ++ after)
    (hmore : target < bytes (blockList s.dirty))
    (hmax : ∀ other ∈ blockList s.dirty, other.2 ≤ block.2)
    (hdirty : s₁.dirty.freeUnits = s.dirty.freeUnits \ Set.Ico block.1 (block.1 + block.2))
    (hreleased : s₁.released.freeUnits =
      s.released.freeUnits ∪ Set.Ico block.1 (block.1 + block.2))
    (hblock : Set.Ico block.1 (block.1 + block.2) ⊆ s.dirty.freeUnits)
    (h : MovesBlocks layout s₁ s' target moved) : MovesBlocks layout s s' target (block :: moved) where
  trees := h.trees
  drains := by
    rw [hblocks] at hmore hmax
    rw [hblocks]
    have hrest := h.drains
    rw [hblocks₁] at hrest
    exact .move hmore hmax hrest
  fromDirty := by
    rw [units_cons]
    have hrest := h.fromDirty
    rw [hdirty] at hrest
    exact Set.union_subset hblock (hrest.trans Set.sdiff_subset)
  dirtyUnits := by
    rw [h.dirtyUnits, hdirty, units_cons, Set.sdiff_sdiff]
  releasedUnits := by
    rw [h.releasedUnits, hreleased, units_cons, Set.union_assoc]
  ends := h.ends

/-- Nothing is moved when no more than the target is left. -/
theorem MovesBlocks.none {pc : Pc} (h : TreesApart layout s)
    (hle : bytes (blockList s.dirty) ≤ target) : MovesBlocks layout s (s.goto t pc) target [] where
  trees := ⟨h.dirtyInv, h.releasedInv, h.disjoint, h.inHeap⟩
  drains := .done hle
  fromDirty := by
    rw [units, span_nil]
    exact Set.empty_subset _
  dirtyUnits := by
    rw [units, span_nil, Set.sdiff_empty]
    rfl
  releasedUnits := by
    rw [units, span_nil, Set.union_empty]
    rfl
  ends := Or.inl hle

/-- **The loop**, from its test on: it ends after one round more than there are dirty blocks. -/
theorem releaseLoop (k : Nat) : ∀ (s : State τ) (releasedBytes : Nat), TreesApart layout s →
    (blockList s.dirty).length = k →
    s.pc t = .releaseTest target releasedBytes (dirtyBytes s.dirty) →
    releasedBytes + bytes (blockList s.dirty) < 2 ^ 64 →
    ∃ s' moved, (List.replicate (k + 1) (releaseRound t)).flatten.foldlM (exec layout) s = .ok s' ∧
      s'.pc t = .idle (.bytes (releasedBytes + bytes moved)) ∧
      MovesBlocks layout s s' target moved := by
  -- a round that finds no more than the target left is the last, and the others are idle
  have hstop : ∀ (n : Nat) (s : State τ) (releasedBytes : Nat), TreesApart layout s →
      s.pc t = .releaseTest target releasedBytes (dirtyBytes s.dirty) →
      dirtyBytes s.dirty ≤ target →
      ∃ s' moved,
        (List.replicate (n + 1) (releaseRound t)).flatten.foldlM (exec layout) s = .ok s' ∧
        s'.pc t = .idle (.bytes (releasedBytes + bytes moved)) ∧
        MovesBlocks layout s s' target moved := by
    intro n s releasedBytes h hpc hle
    have hidle : (s.goto t (.idle (.bytes releasedBytes))).pc t = .idle (.bytes releasedBytes) :=
      Function.update_self _ _ _
    refine ⟨s.goto t (.idle (.bytes releasedBytes)), [], ?_, ?_, .none h ?_⟩
    · rw [List.replicate_succ, List.flatten_cons, List.foldlM_append, round_stops hpc hle]
      exact rounds_idle hidle n
    · rw [hidle]
      simp [bytes]
    · rw [← dirtyBytes_eq h.dirtyInv]
      exact hle
  induction k with
  | zero =>
    intro s releasedBytes h hlen hpc hsum
    have hle : dirtyBytes s.dirty ≤ target := by
      rw [dirtyBytes_eq h.dirtyInv, List.length_eq_zero_iff.mp hlen]
      simp [bytes]
    exact hstop 0 s releasedBytes h hpc hle
  | succ k ih =>
    intro s releasedBytes h hlen hpc hsum
    by_cases hle : dirtyBytes s.dirty ≤ target
    · exact hstop (k + 1) s releasedBytes h hpc hle
    · have hmore := Nat.lt_of_not_le hle
      obtain ⟨s₁, before, after, block, hround, hpc₁, hblocks, hblocks₁, hmax, hdirty, hreleased,
        hblock, h₁⟩ := round_moves h hpc hmore hsum
      have hlen₁ : (blockList s₁.dirty).length = k := by
        rw [hblocks] at hlen
        rw [hblocks₁]
        simp only [List.length_append, List.length_cons] at hlen ⊢
        omega
      have hsum₁ : releasedBytes + block.2 * UNIT_SIZE + bytes (blockList s₁.dirty) < 2 ^ 64 := by
        rw [hblocks, bytes_middle] at hsum
        rw [hblocks₁]
        omega
      obtain ⟨s', moved, hrest, hpc', hmoves⟩ := ih s₁ _ h₁ hlen₁ hpc₁ hsum₁
      rw [dirtyBytes_eq h.dirtyInv] at hmore
      refine ⟨s', block :: moved, ?_, ?_,
        hmoves.cons hblocks hblocks₁ hmore hmax hdirty hreleased hblock⟩
      · rw [List.replicate_succ, List.flatten_cons, List.foldlM_append, hround]
        exact hrest
      · rw [hpc', bytes_cons, Nat.add_assoc]

/-- **`ReleaseGarbageRegions` alone.**  Given enough rounds it returns; it moved blocks of largest
    count, each while more than the target was left, from the dirty to the released tree, and no
    other unit; it stopped at the target or with an empty tree, and it returned the bytes moved. -/
theorem releaseGarbageRegions_drains (hidle : ∃ r, s.pc t = .idle r) (h : TreesApart layout s)
    (target : Nat) :
    ∃ bound s' moved, (∀ n, bound ≤ n → releaseGarbageRegionsRun layout s t target n = .ok s') ∧
      s'.pc t = .idle (.bytes (bytes moved)) ∧ MovesBlocks layout s s' target moved ∧
      s'.dirty.freeUnits ∪ s'.released.freeUnits =
        s.dirty.freeUnits ∪ s.released.freeUnits := by
  obtain ⟨r, hidle⟩ := hidle
  -- there is nothing to do, or the loop runs
  by_cases hle : dirtyBytes s.dirty ≤ target
  · have hcall : exec layout s (.releaseGarbageRegions t target) =
        .ok (s.goto t (.idle (.bytes 0))) := by simp only [exec, hidle, if_pos hle]
    have hidle₁ : (s.goto t (.idle (.bytes 0))).pc t = .idle (.bytes 0) :=
      Function.update_self _ _ _
    have hmoves : MovesBlocks layout s (s.goto t (.idle (.bytes 0))) target [] :=
      .none h (by rw [← dirtyBytes_eq h.dirtyInv]; exact hle)
    refine ⟨0, s.goto t (.idle (.bytes 0)), [], fun n _ => ?_, ?_, hmoves, hmoves.union_eq⟩
    · rw [releaseGarbageRegionsRun, List.foldlM_cons, hcall]
      exact rounds_idle hidle₁ n
    · rw [hidle₁]
      simp [bytes]
  · have hcall : exec layout s (.releaseGarbageRegions t target) =
        .ok (s.goto t (.releaseTest target 0 (dirtyBytes s.dirty))) := by
      simp only [exec, hidle, if_neg hle]
    have h₁ : TreesApart layout (s.goto t (.releaseTest target 0 (dirtyBytes s.dirty))) :=
      ⟨h.dirtyInv, h.releasedInv, h.disjoint, h.inHeap⟩
    obtain ⟨s', moved, hrun, hpc, hmoves⟩ := releaseLoop (blockList s.dirty).length
      (s.goto t (.releaseTest target 0 (dirtyBytes s.dirty))) 0 h₁ rfl
      (Function.update_self _ _ _)
      (by rw [Nat.zero_add]; exact bytes_blockList_lt h.dirtyInv)
    rw [Nat.zero_add] at hpc
    have hmoves' : MovesBlocks layout s s' target moved :=
      ⟨hmoves.trees, hmoves.drains, hmoves.fromDirty, hmoves.dirtyUnits, hmoves.releasedUnits,
        hmoves.ends⟩
    refine ⟨(blockList s.dirty).length + 1, s', moved, fun n hn => ?_, hpc, hmoves',
      hmoves'.union_eq⟩
    obtain ⟨m, rfl⟩ := Nat.exists_eq_add_of_le hn
    rw [releaseGarbageRegionsRun, List.foldlM_cons, hcall, List.replicate_add,
      List.flatten_append]
    show List.foldlM _ _ _ = _
    rw [List.foldlM_append, hrun]
    exact rounds_idle hpc m

/-- A heap of eight units. -/
def eightUnits : HeapLayout where
  heapStartAddress := 2 ^ 40
  totalUnitCount := 8
  table_fits := by decide
  heap_fits := by decide
  idx_fits := by decide

/-- Two dirty blocks, and a released one between them that touches both. -/
def threeBlocks : State Bool where
  dirty := {
    totalCount := 5
    root := .node ⟨0, 5, 3⟩ (.node ⟨24, 0, 2⟩ .nil .nil) .nil
    nodeAllocator := ⟨[], 48⟩
    regionCalls := [] }
  released := {
    totalCount := 3
    root := .node ⟨0, 2, 3⟩ .nil .nil
    nodeAllocator := ⟨[], 24⟩
    regionCalls := [] }
  table := fun _ => ⟨0, 0, 0, 0, 0, 0, 0, 0, 0⟩
  pc := fun _ => .idle .unit
  owned := fun _ => ∅
  regions := ∅

theorem threeBlocks_dirty : threeBlocks.dirty.Inv where
  sound :=
    { coalesced := by simp [threeBlocks, Blocks.Coalesced]
      pos := by simp [threeBlocks]
      bound := by simp [threeBlocks]
      total := rfl
      pool := ⟨by decide, by decide⟩ }
  heap := by simp [threeBlocks]

theorem threeBlocks_released : threeBlocks.released.Inv where
  sound :=
    { coalesced := by simp [threeBlocks, Blocks.Coalesced]
      pos := by simp [threeBlocks]
      bound := by simp [threeBlocks]
      total := rfl
      pool := ⟨by decide, by decide⟩ }
  heap := by simp [threeBlocks]

/-- Everything is drained when no garbage may stay. -/
theorem releaseGarbageRegions_drains_all : ∃ bound s' moved,
    (∀ n, bound ≤ n → releaseGarbageRegionsRun eightUnits threeBlocks true 0 n = .ok s') ∧
    s'.pc true = .idle (.bytes (bytes moved)) ∧
    MovesBlocks eightUnits threeBlocks s' 0 moved ∧
    s'.dirty.freeUnits ∪ s'.released.freeUnits =
      threeBlocks.dirty.freeUnits ∪ threeBlocks.released.freeUnits := by
  have hdirty : threeBlocks.dirty.freeUnits = Set.Iio 2 ∪ Set.Ico 5 8 := by
    ext u
    simp [CartesianTree.freeUnits, threeBlocks]
  have hreleased : threeBlocks.released.freeUnits = Set.Ico 2 5 := by
    ext u
    simp [CartesianTree.freeUnits, threeBlocks]
  refine releaseGarbageRegions_drains ⟨_, rfl⟩
    ⟨threeBlocks_dirty, threeBlocks_released, ?_, ?_⟩ 0
  · rw [hdirty, hreleased, Set.disjoint_left]
    intro u hu hu'
    simp only [Set.mem_union, Set.mem_Iio, Set.mem_Ico] at hu hu'
    omega
  · rw [hdirty, hreleased]
    intro u hu
    simp only [Set.mem_union, Set.mem_Iio, Set.mem_Ico] at hu
    show u < 8
    omega

end Loop

end FreeRegionManager

end CangjieRuntime.Heap
