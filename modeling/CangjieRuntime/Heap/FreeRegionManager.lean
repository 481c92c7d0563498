/-
  The free region manager (`rt.heap.allocator/FreeRegionManager.cj`) under concurrency.

  The manager owns two Cartesian trees, of dirty and of released units, each under its own mutex.
  Any number of threads call it.  The embedding is a transition system:

    * one action is one step that is atomic for the other threads: a section under a mutex, a
      `TryLock` that fails, or an unlocked read of a total count;
    * a thread's program counter holds the locals of the call it is in; an action that its program
      counter does not offer changes nothing;
    * the trees record their calls into `RegionInfo`, and the section that made them performs them
      on the unit table (`runTree`), the trees never read the table;
    * `owned` and `regions` are ghost state: the units each caller has, and the regions handed out
      by `TakeRegion` that have not come back.
-/
import CangjieRuntime.Heap.RegionInfo
import CangjieRuntime.Lib.Runs
import CangjieRuntime.Lib.Holdings

set_option linter.unusedVariables false

namespace CangjieRuntime.Heap

open Runs Holdings RegionInfo

namespace FreeRegionManager

/-! ## State -/

/-- What a call returned: a region or null, nothing, a number of bytes. -/
inductive Returned
  | region (head : Option Nat)
  | unit
  | bytes (n : Nat)
  deriving DecidableEq, Repr

/-- The arguments of `TakeRegion`. -/
structure TakeArgs where
  num : Nat
  uclass : UnitRole
  expectPhysicalMem : Bool
  deriving DecidableEq, Repr

/-- Where a thread is.  A thread is between two sections of the manager: the locks of the two trees
    are held inside a section only, so a section is one step. -/
inductive Pc
  /-- Outside the manager; what its last call returned. -/
  | idle (result : Returned)
  /-- `TakeRegion`, at the top of the loop body. -/
  | takeDirty (args : TakeArgs) (tryDirtyTree tryReleasedTree : Bool)
  /-- `TakeRegion`, before the second half of the loop body. -/
  | takeReleased (args : TakeArgs) (tryDirtyTree tryReleasedTree : Bool)
  /-- `ReleaseGarbageRegions`, at the loop test. -/
  | releaseTest (targetCachedSize releasedBytes dirtyBytes : Nat)
  /-- `ReleaseGarbageRegions`, between its two lock sections, with the block in hand. -/
  | releaseMerge (targetCachedSize releasedBytes idx num : Nat)
  /-- `ReleaseGarbageRegions`, before the read at the end of the loop body. -/
  | releaseRead (targetCachedSize releasedBytes : Nat)
  deriving DecidableEq, Repr

/-- A region handed out: the address `TakeRegion` returned, its first unit and the number of units
    taken for it. -/
structure Region where
  head : Nat
  idx : Nat
  num : Nat
  deriving DecidableEq, Repr

/-- The units of a region. -/
def Region.units (r : Region) : Set Nat := Set.Ico r.idx (r.idx + r.num)

/-- The two trees, the unit table, and where each thread is.  The last two fields say what the
    threads own and which regions were handed out, which no function of the source reads. -/
structure State (τ : Type) where
  dirty : CartesianTree
  released : CartesianTree
  table : UnitTable
  pc : τ → Pc
  owned : τ → Set Nat
  regions : Set Region

/-! ## The sections -/

variable (layout : HeapLayout)

/-- Run a tree operation and perform the calls it made on the unit table. -/
def runTree {α : Type} (tree : CartesianTree) (table : UnitTable)
    (op : CartesianTree → Except Fault (CartesianTree × α)) :
    Except Fault (CartesianTree × UnitTable × α) := do
  let (tree, result) ← op { tree with regionCalls := [] }
  let table ← performAll layout table tree.regionCalls
  .ok (tree, table, result)

/-- The section of `TakeRegion` under the dirty mutex: the tree, the table, and the index of the
    units taken with the region. -/
def takeFromDirty (tree : CartesianTree) (table : UnitTable) (args : TakeArgs) :
    Except Fault (CartesianTree × UnitTable × Option (Nat × Nat)) := do
  let (tree, table, dirtyOk) ← runTree layout tree table
    (·.takeUnitsLowAddr (args.num % 2 ^ 32) true)
  match dirtyOk with
  | none => .ok (tree, table, none)
  | some idx =>
    let _ ← clearUnits layout idx args.num
    let (table, region) ← initRegion layout table idx args.num args.uclass
    .ok (tree, table, some (idx, region))

/-- The section of `TakeRegion` under the released mutex, with the `PrehandleReleasedUnit` that
    follows it: that one only clears pages the caller already has. -/
def takeFromReleased (tree : CartesianTree) (table : UnitTable) (args : TakeArgs) :
    Except Fault (CartesianTree × UnitTable × Option (Nat × Nat)) := do
  let (tree, table, releasedOk) ← runTree layout tree table
    (·.takeUnitsLowAddr (args.num % 2 ^ 32) true)
  match releasedOk with
  | none => .ok (tree, table, none)
  | some idx =>
    let (table, region) ← initRegion layout table idx args.num args.uclass
    let _ ← if args.expectPhysicalMem then clearUnits layout idx args.num else .ok ()
    .ok (tree, table, some (idx, region))

/-- A `MergeInsert` that the caller turns into `RtFatal` when it fails. -/
def insertOrFatal (tree : CartesianTree) (table : UnitTable) (idx num : Nat) :
    Except Fault (CartesianTree × UnitTable) := do
  let (tree, table, ok) ← runTree layout tree table (·.mergeInsert idx num true)
  if ok then .ok (tree, table) else .error .fatal

/-- The section of `ReleaseGarbageRegions` under the dirty mutex: the block of the root that was
    released, if there is a root. -/
def releaseRoot (tree : CartesianTree) (table : UnitTable) :
    Except Fault (CartesianTree × UnitTable × Option (Nat × Nat)) :=
  match tree.root with
  | .nil => .ok (tree, table, none)
  | .node node _ _ => do
    let (tree, table, _) ← runTree layout tree table fun t => t.releaseRootNode.map fun t => (t, ())
    .ok (tree, table, some (node.index, node.count))

/-- `UIntNative(DirtyTree().GetTotalCount()) * RegionInfo.UNIT_SIZE`. -/
def dirtyBytes (tree : CartesianTree) : Nat := Words.mul 64 tree.totalCount UNIT_SIZE

/-! ## Actions -/

/-- The steps of the manager's calls.  A section under a mutex is one step, and so is the reading of
    a count without one. -/
inductive Action (τ : Type)
  /-- Call `TakeRegion`. -/
  | takeRegion (t : τ) (args : TakeArgs)
  /-- The first half of its loop body, with the outcome of the `TryLock`. -/
  | tryLockDirty (t : τ) (acquired : Bool)
  /-- The second half of its loop body, with the outcome of the `TryLock`. -/
  | tryLockReleased (t : τ) (acquired : Bool)
  | addGarbageUnits (t : τ) (idx num : Nat)
  | addReleaseUnits (t : τ) (idx num : Nat)
  /-- Call `ReleaseGarbageRegions`, up to its first read. -/
  | releaseGarbageRegions (t : τ) (targetCachedSize : Nat)
  /-- Its loop test and the section under the dirty mutex. -/
  | releaseRoot (t : τ)
  /-- Its section under the released mutex. -/
  | mergeReleased (t : τ)
  /-- Its read at the end of the loop body. -/
  | readDirty (t : τ)
  /-- Two callers pass units on without the manager. -/
  | handOver (t u : τ) (idx num : Nat)
  deriving DecidableEq, Repr

section Exec

variable {τ : Type} [DecidableEq τ]

/-- Set a thread's program counter. -/
def State.goto (s : State τ) (t : τ) (pc : Pc) : State τ :=
  { s with pc := Function.update s.pc t pc }

/-- The end of the loop body of `TakeRegion`: another round, or a null result. -/
def takeAgain (args : TakeArgs) (tryDirtyTree tryReleasedTree : Bool) : Pc :=
  if tryDirtyTree || tryReleasedTree then .takeDirty args tryDirtyTree tryReleasedTree
  else .idle (.region none)

/-- `TakeRegion` returns the region of the `num` units from `idx` on. -/
def State.taken (s : State τ) (t : τ) (idx num region : Nat) : State τ :=
  { s with
    pc := Function.update s.pc t (.idle (.region (some region)))
    owned := Function.update s.owned t (s.owned t ∪ Set.Ico idx (idx + num))
    regions := insert ⟨region, idx, num⟩ s.regions }

/-- The caller gives the `num` units from `idx` on away. -/
def State.given (s : State τ) (t : τ) (idx num : Nat) : State τ :=
  { s with
    pc := Function.update s.pc t (.idle .unit)
    owned := Function.update s.owned t (s.owned t \ Set.Ico idx (idx + num))
    regions := s.regions \ {r | r.idx = idx ∧ r.num = num} }

/-- One action. -/
def exec (s : State τ) : Action τ → Except Fault (State τ)
  | .takeRegion t args =>
    match s.pc t with
    | .idle _ => .ok (s.goto t (.takeDirty args true true))
    | _ => .ok s
  | .tryLockDirty t acquired =>
    match s.pc t with
    | .takeDirty args tryDirtyTree tryReleasedTree =>
      if tryDirtyTree && acquired then do
        let (dirty, table, taken) ← takeFromDirty layout s.dirty s.table args
        let s := { s with dirty := dirty, table := table }
        match taken with
        | some (idx, region) => .ok (s.taken t idx (args.num % 2 ^ 32) region)
        | none => .ok (s.goto t (.takeReleased args false tryReleasedTree))
      else .ok (s.goto t (.takeReleased args tryDirtyTree tryReleasedTree))
    | _ => .ok s
  | .tryLockReleased t acquired =>
    match s.pc t with
    | .takeReleased args tryDirtyTree tryReleasedTree =>
      if tryReleasedTree && acquired then do
        let (released, table, taken) ← takeFromReleased layout s.released s.table args
        let s := { s with released := released, table := table }
        match taken with
        | some (idx, region) => .ok (s.taken t idx (args.num % 2 ^ 32) region)
        | none => .ok (s.goto t (takeAgain args tryDirtyTree false))
      else .ok (s.goto t (takeAgain args tryDirtyTree tryReleasedTree))
    | _ => .ok s
  | .addGarbageUnits t idx num =>
    match s.pc t with
    | .idle _ => do
      let (dirty, table) ← insertOrFatal layout s.dirty s.table idx num
      .ok ({ s with dirty := dirty, table := table }.given t idx num)
    | _ => .ok s
  | .addReleaseUnits t idx num =>
    match s.pc t with
    | .idle _ => do
      let (released, table) ← insertOrFatal layout s.released s.table idx num
      .ok ({ s with released := released, table := table }.given t idx num)
    | _ => .ok s
  | .releaseGarbageRegions t targetCachedSize =>
    match s.pc t with
    | .idle _ =>
      if dirtyBytes s.dirty ≤ targetCachedSize then .ok (s.goto t (.idle (.bytes 0)))
      else .ok (s.goto t (.releaseTest targetCachedSize 0 (dirtyBytes s.dirty)))
    | _ => .ok s
  | .releaseRoot t =>
    match s.pc t with
    | .releaseTest targetCachedSize releasedBytes dirtyBytes =>
      if targetCachedSize < dirtyBytes then do
        let (dirty, table, block) ← releaseRoot layout s.dirty s.table
        let s := { s with dirty := dirty, table := table }
        match block with
        | none => .ok (s.goto t (.idle (.bytes releasedBytes)))
        | some (idx, num) => .ok (s.goto t (.releaseMerge targetCachedSize releasedBytes idx num))
      else .ok (s.goto t (.idle (.bytes releasedBytes)))
    | _ => .ok s
  | .mergeReleased t =>
    match s.pc t with
    | .releaseMerge targetCachedSize releasedBytes idx num => do
      let (released, table) ← insertOrFatal layout s.released s.table idx num
      let s := { s with released := released, table := table }
      .ok (s.goto t (.releaseRead targetCachedSize
        (Words.add 64 releasedBytes (Words.mul 64 num UNIT_SIZE))))
    | _ => .ok s
  | .readDirty t =>
    match s.pc t with
    | .releaseRead targetCachedSize releasedBytes =>
      .ok (s.goto t (.releaseTest targetCachedSize releasedBytes (dirtyBytes s.dirty)))
    | _ => .ok s
  | .handOver t u idx num =>
    let owned := Function.update s.owned t (s.owned t \ Set.Ico idx (idx + num))
    .ok { s with owned := Function.update owned u (owned u ∪ Set.Ico idx (idx + num)) }

/-! ## The system -/

/-- A new manager: both trees empty, every unit with some caller. -/
structure State.Initial (s : State τ) : Prop where
  dirty : ∃ base, s.dirty = CartesianTree.init base
  released : ∃ base, s.released = CartesianTree.init base
  idle : ∀ t, s.pc t = .idle .unit
  owned : Partitions s.owned (Set.Iio layout.totalUnitCount)
  regions : s.regions = ∅

/-- The manager and its callers, every order of steps. -/
def machine : System (State τ) (Action τ) where
  init s := s.Initial layout
  step s a s' := exec layout s a = .ok s'

/-- What callers promise: a block that is given away is not empty and the caller has it. -/
def Action.Owned (s : State τ) : Action τ → Prop
  | .addGarbageUnits t idx num => 0 < num ∧ Set.Ico idx (idx + num) ⊆ s.owned t
  | .addReleaseUnits t idx num => 0 < num ∧ Set.Ico idx (idx + num) ⊆ s.owned t
  | .handOver t u idx num => Set.Ico idx (idx + num) ⊆ s.owned t
  | _ => True

/-- A request for a number of units that is a 32-bit count. -/
def Action.CountFits : Action τ → Prop
  | .takeRegion _ args => args.num < 2 ^ 32
  | _ => True

/-- The tree has a block of `num` units.  This is what a take from the tree asks for, and by the
    lemma about it all it asks for. -/
def HasBlock (tree : CartesianTree) (num : Nat) : Prop :=
  0 < num ∧ ∃ n ∈ SlotTree.inorder tree.root, num ≤ n.count

/-- The action is a section of `TakeRegion` that finds a block for the request. -/
def Action.Serves (s : State τ) : Action τ → TakeArgs → Prop
  | .tryLockDirty t acquired, args => acquired = true ∧
    (∃ r, s.pc t = .takeDirty args true r) ∧ HasBlock s.dirty (args.num % 2 ^ 32)
  | .tryLockReleased t acquired, args => acquired = true ∧
    (∃ d, s.pc t = .takeReleased args d true) ∧ HasBlock s.released (args.num % 2 ^ 32)
  | _, _ => False

end Exec

end FreeRegionManager

end CangjieRuntime.Heap
