/-
  One call of `TakeRegion`, run without interference.

  The two `TryLock`s may fail any number of times, so a run of the call is the list of their
  outcomes, round by round (`rounds`).  What the loop keeps from round to round is `Looking`: the
  trees are as they were, and a flag that was cleared means that the tree has no block for the
  request.  A section that finds a block ends the call with the units taken from that tree alone.

  The trees are asked for `UInt32(num)` units, the region is stamped with `num`.  For a request
  that is not a 32-bit count and finds a block all the same, no `num` units were free to begin with,
  whatever the call returns (`takeRegion_exact_iff`).
-/
import CangjieRuntime.Heap.ManagerSections
import CangjieRuntime.Heap.BestFit
import CangjieRuntime.Heap.RegionResolution

set_option linter.unusedVariables false

namespace CangjieRuntime.Heap

open SlotTree RegionInfo

namespace FreeRegionManager

variable {layout : HeapLayout} {τ : Type}

/-! ## Statement -/

/-- The tree is the same but for its record of calls into `RegionInfo`. -/
def Unchanged (tree tree' : CartesianTree) : Prop :=
  tree' = { tree with regionCalls := tree'.regionCalls }

/-- The region at `head` has exactly `num` units, all of them free in `tree` before, and these are
    the units `tree` lost. -/
structure Served (layout : HeapLayout) (table' : UnitTable) (tree tree' : CartesianTree)
    (num head : Nat) : Prop where
  inv : tree'.Inv
  units : ∃ idx, Set.Ico idx (idx + num) ⊆ tree.freeUnits ∧
    tree'.freeUnits = tree.freeUnits \ Set.Ico idx (idx + num) ∧
    getRegionStart layout head = .ok (layout.unitStart idx)
  unitCount : getUnitCount layout table' head = .ok num

/-- What a call that returned did. -/
inductive TakeResult (layout : HeapLayout) (s s' : State τ) (num : Nat) : Option Nat → Prop
  | dirty {head : Nat} (hserved : Served layout s'.table s.dirty s'.dirty num head)
      (hother : Unchanged s.released s'.released) : TakeResult layout s s' num (some head)
  | released {head : Nat} (hserved : Served layout s'.table s.released s'.released num head)
      (hother : Unchanged s.dirty s'.dirty) : TakeResult layout s s' num (some head)
  | null (hdirty : Unchanged s.dirty s'.dirty) (hreleased : Unchanged s.released s'.released) :
      TakeResult layout s s' num none

/-- Neither tree has a block for the request. -/
def NoBlock (s : State τ) (num : Nat) : Prop :=
  num = 0 ∨ ((∀ n ∈ inorder s.dirty.root, n.count < num) ∧
    ∀ n ∈ inorder s.released.root, n.count < num)

section Run

variable [DecidableEq τ]

/-- The rounds of the loop, with the outcomes of their two `TryLock`s. -/
def rounds (t : τ) (locks : List (Bool × Bool)) : List (Action τ) :=
  locks.flatMap fun lock => [.tryLockDirty t lock.1, .tryLockReleased t lock.2]

/-- A call of `TakeRegion` by thread `t`, and nobody else. -/
def takeRegionRun (layout : HeapLayout) (s : State τ) (t : τ) (args : TakeArgs)
    (locks : List (Bool × Bool)) : Except Fault (State τ) :=
  (Action.takeRegion t args :: rounds t locks).foldlM (exec layout) s

/-- Whatever the outcomes of the `TryLock`s, the call does not fault, and when it returns it has
    served exactly what was asked. -/
def TakesExactly (layout : HeapLayout) (s : State τ) (t : τ) (args : TakeArgs) : Prop :=
  ∀ locks, ∃ s', takeRegionRun layout s t args locks = .ok s' ∧
    ∀ r, s'.pc t = .idle r → ∃ result, r = .region result ∧
      TakeResult layout s s' args.num result ∧ (result = none ↔ NoBlock s args.num)

end Run

/-! ## The sections -/

/-- A tree is as it was. -/
theorem Unchanged.refl (tree : CartesianTree) : Unchanged tree tree := rfl

/-- The calls that were recorded do not matter. -/
theorem Unchanged.reset {tree tree' : CartesianTree} (h : Unchanged tree tree') :
    Unchanged tree { tree' with regionCalls := [] } := by
  unfold Unchanged at *
  rw [h]

/-- The nodes are the same. -/
theorem Unchanged.root_eq {tree tree' : CartesianTree} (h : Unchanged tree tree') :
    tree'.root = tree.root := by
  have heq : tree' = { tree with regionCalls := tree'.regionCalls } := h
  rw [heq]

/-- The invariant of the tree holds still. -/
theorem Unchanged.inv {tree tree' : CartesianTree} (h : Unchanged tree tree') (hinv : tree.Inv) :
    tree'.Inv := by
  unfold Unchanged at h
  rw [h]
  exact ⟨⟨hinv.sound.coalesced, hinv.sound.pos, hinv.sound.bound, hinv.sound.total,
    ⟨hinv.sound.pool.nodup, hinv.sound.pool.below⟩⟩, hinv.heap⟩

/-- The same units are free. -/
theorem Unchanged.freeUnits_eq {tree tree' : CartesianTree} (h : Unchanged tree tree') :
    tree'.freeUnits = tree.freeUnits := by
  unfold CartesianTree.freeUnits
  rw [h.root_eq]

/-- The same requests can be met. -/
theorem Unchanged.hasBlock_iff {tree tree' : CartesianTree} (h : Unchanged tree tree') (num : Nat) :
    HasBlock tree' num ↔ HasBlock tree num := by
  unfold HasBlock
  rw [h.root_eq]

/-- A block has fewer than `2 ^ 32` units. -/
theorem HasBlock.lt {tree : CartesianTree} (h : tree.Inv) {num : Nat} (hblock : HasBlock tree num) :
    num < 2 ^ 32 := by
  obtain ⟨-, n, hn, hle⟩ := hblock
  have := h.sound.bound n hn
  omega

/-- A request cannot be met if neither tree has a block for it. -/
theorem noBlock_iff {s : State τ} {num : Nat} :
    NoBlock s num ↔ ¬ HasBlock s.dirty num ∧ ¬ HasBlock s.released num := by
  unfold NoBlock HasBlock
  constructor
  · rintro (rfl | ⟨hdirty, hreleased⟩)
    · exact ⟨fun h => Nat.lt_irrefl _ h.1, fun h => Nat.lt_irrefl _ h.1⟩
    · refine ⟨fun ⟨_, n, hn, hle⟩ => ?_, fun ⟨_, n, hn, hle⟩ => ?_⟩
      · exact Nat.lt_irrefl _ (Nat.lt_of_le_of_lt hle (hdirty n hn))
      · exact Nat.lt_irrefl _ (Nat.lt_of_le_of_lt hle (hreleased n hn))
  · rintro ⟨hdirty, hreleased⟩
    refine or_iff_not_imp_left.mpr fun hnum => ⟨fun n hn => ?_, fun n hn => ?_⟩
    · exact Nat.lt_of_not_le fun hle => hdirty ⟨Nat.pos_of_ne_zero hnum, n, hn, hle⟩
    · exact Nat.lt_of_not_le fun hle => hreleased ⟨Nat.pos_of_ne_zero hnum, n, hn, hle⟩

/-- The tree operation of both sections. -/
theorem runTake_spec {tree : CartesianTree} (h : tree.Inv)
    (hfree : tree.freeUnits ⊆ Set.Iio layout.totalUnitCount) (table : UnitTable) (num : Nat) :
    (¬ HasBlock tree num ∧ runTree layout tree table (·.takeUnitsLowAddr num true) =
      .ok ({ tree with regionCalls := [] }, table, none)) ∨
    (HasBlock tree num ∧ ∃ tree' table' idx, runTree layout tree table
        (·.takeUnitsLowAddr num true) = .ok (tree', table', some idx) ∧ tree'.Inv ∧
      Set.Ico idx (idx + num) ⊆ tree.freeUnits ∧
      tree'.freeUnits = tree.freeUnits \ Set.Ico idx (idx + num)) := by
  have hreset : ({ tree with regionCalls := [] } : CartesianTree).Inv := inv_resetCalls h
  by_cases hblock : HasBlock tree num
  · obtain ⟨tree', table', ⟨hres, -, -⟩ | ⟨idx, hres, -, hsub, hunits, hok⟩⟩ :=
      take_spec h hfree table num
    · -- the tree operation would have failed
      obtain ⟨t', n, hop, -, -⟩ :=
        (CartesianTree.takeUnitsLowAddr_takes hreset hblock.1 true).resolve_left
          fun ⟨_, hsmall⟩ => by
            obtain ⟨-, n, hn, hle⟩ := hblock
            exact Nat.lt_irrefl _ (Nat.lt_of_le_of_lt hle (hsmall n hn))
      simp only [runTree, hop, bind, Except.bind] at hres
      cases hperform : performAll layout table t'.regionCalls with
      | error fault =>
        rw [hperform] at hres
        cases hres
      | ok table₁ =>
        rw [hperform] at hres
        cases hres
    · exact Or.inr ⟨hblock, tree', table', idx, hres, hok.inv, hsub, hunits⟩
  · refine Or.inl ⟨hblock, ?_⟩
    have hop : ({ tree with regionCalls := [] } : CartesianTree).takeUnitsLowAddr num true =
        .ok ({ tree with regionCalls := [] }, none) := by
      by_cases hnum : num = 0
      · unfold CartesianTree.takeUnitsLowAddr
        rw [if_pos (Or.inr hnum)]
      · refine ((CartesianTree.takeUnitsLowAddr_takes hreset (Nat.pos_of_ne_zero hnum)
          true).resolve_right ?_).1
        rintro ⟨t', n, -, htook, -⟩
        exact hblock ⟨Nat.pos_of_ne_zero hnum, n, htook.mem, htook.fits⟩
    simp only [runTree, hop, bind, Except.bind, performAll]

/-- What a section does for a request that is a 32-bit count if it finds a block. -/
def SectionServes (layout : HeapLayout) (tree : CartesianTree) (table : UnitTable)
    (args : TakeArgs)
    (result : Except Fault (CartesianTree × UnitTable × Option (Nat × Nat))) : Prop :=
  (¬ HasBlock tree args.num ∧ result = .ok ({ tree with regionCalls := [] }, table, none)) ∨
    (HasBlock tree args.num ∧ ∃ tree' table' idx head,
      result = .ok (tree', table', some (idx, head)) ∧
        Served layout table' tree tree' args.num head)

/-- Stamping the region that was taken. -/
theorem initRegion_served {tree tree' : CartesianTree} (table₁ : UnitTable) {idx num : Nat}
    (hfree : tree.freeUnits ⊆ Set.Iio layout.totalUnitCount) (hnum : 0 < num) (hinv : tree'.Inv)
    (hsub : Set.Ico idx (idx + num) ⊆ tree.freeUnits)
    (hunits : tree'.freeUnits = tree.freeUnits \ Set.Ico idx (idx + num)) (role : UnitRole) :
    idx < layout.totalUnitCount ∧
      ∃ table', initRegion layout table₁ idx num role = .ok (table', layout.unitPtr idx) ∧
        Served layout table' tree tree' num (layout.unitPtr idx) := by
  have hend : idx + num ≤ layout.totalUnitCount := by
    have : idx + num - 1 < layout.totalUnitCount := hfree (hsub ⟨by omega, by omega⟩)
    omega
  obtain ⟨table', hres, -, -, hregionEnd⟩ := initRegion_spec hnum hend role table₁
  obtain ⟨hstart, -, hcount⟩ := region_extent hregionEnd hnum hend
  exact ⟨by omega, table', hres, hinv, ⟨idx, hsub, hunits, hstart⟩, hcount⟩

/-- The request cut to 32 bits meets the condition exactly when the request does. -/
theorem hasBlock_mod {tree : CartesianTree} (h : tree.Inv) {num : Nat}
    (hcond : HasBlock tree (num % 2 ^ 32) → num < 2 ^ 32) :
    HasBlock tree (num % 2 ^ 32) ↔ HasBlock tree num := by
  constructor
  · intro hblock
    rwa [Nat.mod_eq_of_lt (hcond hblock)] at hblock
  · intro hblock
    rwa [Nat.mod_eq_of_lt (hblock.lt h)]

/-- **The dirty section.**  If the tree has a block the call is served from it; otherwise the tree
    and the table are as before. -/
theorem takeFromDirty_serves {tree : CartesianTree} (h : tree.Inv)
    (hfree : tree.freeUnits ⊆ Set.Iio layout.totalUnitCount) (table : UnitTable) {args : TakeArgs}
    (hcond : HasBlock tree (args.num % 2 ^ 32) → args.num < 2 ^ 32) :
    SectionServes layout tree table args (takeFromDirty layout tree table args) := by
  have hiff := hasBlock_mod h hcond
  rcases runTake_spec h hfree table (args.num % 2 ^ 32) with
    ⟨hblock, hres⟩ | ⟨hblock, tree', table₁, idx, hres, hinv, hsub, hunits⟩
  · refine Or.inl ⟨fun hb => hblock (hiff.mpr hb), ?_⟩
    simp only [takeFromDirty, hres, bind, Except.bind]
  · rw [Nat.mod_eq_of_lt (hcond hblock)] at hsub hunits
    obtain ⟨hidx, table', hinit, hserved⟩ := initRegion_served table₁ hfree
      (hiff.mp hblock).1 hinv hsub hunits args.uclass
    refine Or.inr ⟨hiff.mp hblock, tree', table', idx, _, ?_, hserved⟩
    simp only [takeFromDirty, hres, clearUnits, getUnitAddress_eq hidx, hinit, bind, Except.bind]

/-- **The released section.**  The same for the other tree. -/
theorem takeFromReleased_serves {tree : CartesianTree} (h : tree.Inv)
    (hfree : tree.freeUnits ⊆ Set.Iio layout.totalUnitCount) (table : UnitTable) {args : TakeArgs}
    (hcond : HasBlock tree (args.num % 2 ^ 32) → args.num < 2 ^ 32) :
    SectionServes layout tree table args (takeFromReleased layout tree table args) := by
  have hiff := hasBlock_mod h hcond
  rcases runTake_spec h hfree table (args.num % 2 ^ 32) with
    ⟨hblock, hres⟩ | ⟨hblock, tree', table₁, idx, hres, hinv, hsub, hunits⟩
  · refine Or.inl ⟨fun hb => hblock (hiff.mpr hb), ?_⟩
    simp only [takeFromReleased, hres, bind, Except.bind]
  · rw [Nat.mod_eq_of_lt (hcond hblock)] at hsub hunits
    obtain ⟨hidx, table', hinit, hserved⟩ := initRegion_served table₁ hfree
      (hiff.mp hblock).1 hinv hsub hunits args.uclass
    refine Or.inr ⟨hiff.mp hblock, tree', table', idx, _, ?_, hserved⟩
    simp only [takeFromReleased, hres, hinit, bind, Except.bind]
    cases args.expectPhysicalMem <;> simp [clearUnits, getUnitAddress_eq hidx, bind, Except.bind]

/-! ## The loop -/

section Loop

variable [DecidableEq τ] {s₀ s : State τ} {t : τ} {args : TakeArgs}

/-- Nothing was taken yet; a flag that was cleared means that its tree has no block. -/
structure Looking (s₀ s : State τ) (t : τ) (args : TakeArgs) (tryDirtyTree tryReleasedTree : Bool)
    (pc : Pc) : Prop where
  pc : s.pc t = pc
  dirty : Unchanged s₀.dirty s.dirty
  released : Unchanged s₀.released s.released
  noDirty : tryDirtyTree = false → ¬ HasBlock s₀.dirty args.num
  noReleased : tryReleasedTree = false → ¬ HasBlock s₀.released args.num

/-- The call has returned, with the right result.  It returned the region it took from one of the
    trees, or nothing exactly if neither had a block. -/
def Finished (layout : HeapLayout) (s₀ s : State τ) (t : τ) (args : TakeArgs) : Prop :=
  ∃ result, s.pc t = .idle (.region result) ∧ TakeResult layout s₀ s args.num result ∧
    (result = none ↔ NoBlock s₀ args.num)

/-- The trees of the state before the call. -/
structure Start (layout : HeapLayout) (s₀ : State τ) (args : TakeArgs) : Prop where
  dirty : s₀.dirty.Inv
  released : s₀.released.Inv
  dirtyFree : s₀.dirty.freeUnits ⊆ Set.Iio layout.totalUnitCount
  releasedFree : s₀.released.freeUnits ⊆ Set.Iio layout.totalUnitCount
  countFits : HasBlock s₀.dirty (args.num % 2 ^ 32) ∨ HasBlock s₀.released (args.num % 2 ^ 32) →
    args.num < 2 ^ 32

omit [DecidableEq τ] in
/-- A request is served from a tree that is as it was before. -/
theorem Served.of_unchanged {tree₀ tree tree' : CartesianTree} {table' : UnitTable}
    {num head : Nat} (h : Served layout table' tree tree' num head)
    (hsame : Unchanged tree₀ tree) : Served layout table' tree₀ tree' num head := by
  obtain ⟨idx, hsub, hunits, hstart⟩ := h.units
  rw [hsame.freeUnits_eq] at hsub hunits
  exact ⟨h.inv, ⟨idx, hsub, hunits, hstart⟩, h.unitCount⟩

omit [DecidableEq τ] in
/-- A block among the dirty units is a block. -/
theorem not_noBlock_of_dirty {num : Nat} (h : HasBlock s₀.dirty num) : ¬ NoBlock s₀ num :=
  fun hno => (noBlock_iff.mp hno).1 h

omit [DecidableEq τ] in
/-- So is one among the released units. -/
theorem not_noBlock_of_released {num : Nat} (h : HasBlock s₀.released num) : ¬ NoBlock s₀ num :=
  fun hno => (noBlock_iff.mp hno).2 h

/-- **The first half of a round.**  Without the lock the tree is looked at again in the next round;
    with it, it is the last time. -/
theorem tryLockDirty_looking (hstart : Start layout s₀ args) {d r : Bool}
    (h : Looking s₀ s t args d r (.takeDirty args d r)) (acquired : Bool) :
    ∃ s', exec layout s (.tryLockDirty t acquired) = .ok s' ∧
      ((∃ d', Looking s₀ s' t args d' r (.takeReleased args d' r)) ∨
        Finished layout s₀ s' t args) := by
  have hpc := h.pc
  by_cases hlock : (d && acquired) = true
  · have hinv := h.dirty.inv hstart.dirty
    have hfree := hstart.dirtyFree
    rw [← h.dirty.freeUnits_eq] at hfree
    rcases @takeFromDirty_serves layout _ hinv hfree s.table args
        (fun hb => hstart.countFits (Or.inl ((h.dirty.hasBlock_iff _).mp hb))) with
      ⟨hblock, hres⟩ | ⟨hblock, tree', table', idx, head, hres, hserved⟩
    · refine ⟨{ s with dirty := { s.dirty with regionCalls := [] } }.goto t
          (.takeReleased args false r),
        by simp only [exec, hpc, hlock, if_true, hres, bind, Except.bind],
        Or.inl ⟨false, Function.update_self _ _ _, h.dirty.reset, h.released, fun _ hb => ?_,
          h.noReleased⟩⟩
      exact hblock ((h.dirty.hasBlock_iff _).mpr hb)
    · refine ⟨{ s with dirty := tree', table := table' }.taken t idx (args.num % 2 ^ 32) head,
        by simp only [exec, hpc, hlock, if_true, hres, bind, Except.bind],
        Or.inr ⟨some head, Function.update_self _ _ _,
          .dirty (hserved.of_unchanged h.dirty) h.released, ?_⟩⟩
      have hno := not_noBlock_of_dirty ((h.dirty.hasBlock_iff _).mp hblock)
      exact ⟨fun hnone => absurd hnone (Option.some_ne_none head), fun hb => absurd hb hno⟩
  · exact ⟨s.goto t (.takeReleased args d r), by simp only [exec, hpc, if_neg hlock],
      Or.inl ⟨d, Function.update_self _ _ _, h.dirty, h.released, h.noDirty, h.noReleased⟩⟩

omit [DecidableEq τ] in
/-- The end of a round. -/
theorem looking_or_finished {s' : State τ} {d r : Bool} (hpc : s'.pc t = takeAgain args d r)
    (hdirty : Unchanged s₀.dirty s'.dirty) (hreleased : Unchanged s₀.released s'.released)
    (hnoDirty : d = false → ¬ HasBlock s₀.dirty args.num)
    (hnoReleased : r = false → ¬ HasBlock s₀.released args.num) :
    (∃ d' r', Looking s₀ s' t args d' r' (.takeDirty args d' r')) ∨
      Finished layout s₀ s' t args := by
  unfold takeAgain at hpc
  by_cases hagain : (d || r) = true
  · rw [if_pos hagain] at hpc
    exact Or.inl ⟨d, r, hpc, hdirty, hreleased, hnoDirty, hnoReleased⟩
  · rw [if_neg hagain] at hpc
    obtain ⟨hd, hr⟩ := Bool.or_eq_false_iff.mp (Bool.eq_false_iff.mpr hagain)
    exact Or.inr ⟨none, hpc, .null hdirty hreleased, fun _ => noBlock_iff.mpr
      ⟨hnoDirty hd, hnoReleased hr⟩, fun _ => rfl⟩

/-- **The second half of a round.**  When neither tree is to be looked at again the call returns
    nothing. -/
theorem tryLockReleased_looking (hstart : Start layout s₀ args) {d r : Bool}
    (h : Looking s₀ s t args d r (.takeReleased args d r)) (acquired : Bool) :
    ∃ s', exec layout s (.tryLockReleased t acquired) = .ok s' ∧
      ((∃ d' r', Looking s₀ s' t args d' r' (.takeDirty args d' r')) ∨
        Finished layout s₀ s' t args) := by
  have hpc := h.pc
  by_cases hlock : (r && acquired) = true
  · have hinv := h.released.inv hstart.released
    have hfree := hstart.releasedFree
    rw [← h.released.freeUnits_eq] at hfree
    rcases @takeFromReleased_serves layout _ hinv hfree s.table args
        (fun hb => hstart.countFits (Or.inr ((h.released.hasBlock_iff _).mp hb))) with
      ⟨hblock, hres⟩ | ⟨hblock, tree', table', idx, head, hres, hserved⟩
    · refine ⟨{ s with released := { s.released with regionCalls := [] } }.goto t
          (takeAgain args d false),
        by simp only [exec, hpc, hlock, if_true, hres, bind, Except.bind],
        looking_or_finished (Function.update_self _ _ _) h.dirty h.released.reset h.noDirty
          fun _ hb => hblock ((h.released.hasBlock_iff _).mpr hb)⟩
    · refine ⟨{ s with released := tree', table := table' }.taken t idx (args.num % 2 ^ 32) head,
        by simp only [exec, hpc, hlock, if_true, hres, bind, Except.bind],
        Or.inr ⟨some head, Function.update_self _ _ _,
          .released (hserved.of_unchanged h.released) h.dirty, ?_⟩⟩
      have hno := not_noBlock_of_released ((h.released.hasBlock_iff _).mp hblock)
      exact ⟨fun hnone => absurd hnone (Option.some_ne_none head), fun hb => absurd hb hno⟩
  · exact ⟨s.goto t (takeAgain args d r), by simp only [exec, hpc, if_neg hlock],
      looking_or_finished (Function.update_self _ _ _) h.dirty h.released h.noDirty h.noReleased⟩

/-- After the call has returned, its steps do nothing. -/
theorem exec_idle {r : Returned} (hpc : s.pc t = .idle r) (acquired : Bool) :
    exec layout s (.tryLockDirty t acquired) = .ok s ∧
      exec layout s (.tryLockReleased t acquired) = .ok s := by
  simp only [exec, hpc, and_self]

/-- **Round by round.**  Whatever the locks do, after each round the call is still looking, with
    both trees as at the start, or has finished. -/
theorem rounds_looking (hstart : Start layout s₀ args) (locks : List (Bool × Bool)) :
    ∀ s : State τ, ((∃ d r, Looking s₀ s t args d r (.takeDirty args d r)) ∨
        Finished layout s₀ s t args) →
      ∃ s', (rounds t locks).foldlM (exec layout) s = .ok s' ∧
        ((∃ d r, Looking s₀ s' t args d r (.takeDirty args d r)) ∨
          Finished layout s₀ s' t args) := by
  induction locks with
  | nil => exact fun s h => ⟨s, rfl, h⟩
  | cons lock locks ih =>
    intro s h
    obtain ⟨s₁, hdirty, h₁⟩ : ∃ s₁, exec layout s (.tryLockDirty t lock.1) = .ok s₁ ∧
        ((∃ d r, Looking s₀ s₁ t args d r (.takeReleased args d r)) ∨
          Finished layout s₀ s₁ t args) := by
      rcases h with ⟨d, r, hlooking⟩ | hdone
      · obtain ⟨s₁, hexec, ⟨d', h₁⟩ | hdone⟩ := tryLockDirty_looking hstart hlooking lock.1
        · exact ⟨s₁, hexec, Or.inl ⟨d', r, h₁⟩⟩
        · exact ⟨s₁, hexec, Or.inr hdone⟩
      · obtain ⟨result, hpc, -⟩ := id hdone
        exact ⟨s, (exec_idle hpc _).1, Or.inr hdone⟩
    obtain ⟨s₂, hreleased, h₂⟩ : ∃ s₂, exec layout s₁ (.tryLockReleased t lock.2) = .ok s₂ ∧
        ((∃ d r, Looking s₀ s₂ t args d r (.takeDirty args d r)) ∨
          Finished layout s₀ s₂ t args) := by
      rcases h₁ with ⟨d, r, hlooking⟩ | hdone
      · exact tryLockReleased_looking hstart hlooking lock.2
      · obtain ⟨result, hpc, -⟩ := id hdone
        exact ⟨s₁, (exec_idle hpc _).2, Or.inr hdone⟩
    obtain ⟨s', hrun, h'⟩ := ih s₂ h₂
    refine ⟨s', ?_, h'⟩
    rw [rounds, List.flatMap_cons, List.cons_append, List.cons_append, List.nil_append,
      List.foldlM_cons, hdirty]
    simp only [bind, Except.bind]
    rw [List.foldlM_cons, hreleased]
    exact hrun

/-- A section that finds a block hands a region out, whatever it stamps. -/
theorem takeFromDirty_some {tree : CartesianTree} (h : tree.Inv)
    (hfree : tree.freeUnits ⊆ Set.Iio layout.totalUnitCount) {table : UnitTable}
    (hblock : HasBlock tree (args.num % 2 ^ 32))
    {result : CartesianTree × UnitTable × Option (Nat × Nat)}
    (hres : takeFromDirty layout tree table args = .ok result) :
    ∃ tree' table' idx head, result = (tree', table', some (idx, head)) := by
  obtain ⟨-, tree', table₁, idx, hrun, -⟩ :=
    (runTake_spec h hfree table (args.num % 2 ^ 32)).resolve_left fun hno => hno.1 hblock
  simp only [takeFromDirty, hrun, bind, Except.bind] at hres
  cases hclear : clearUnits layout idx args.num with
  | error fault =>
    rw [hclear] at hres
    cases hres
  | ok _ =>
    simp only [hclear] at hres
    cases hinit : initRegion layout table₁ idx args.num args.uclass with
    | error fault =>
      rw [hinit] at hres
      cases hres
    | ok region =>
      simp only [hinit] at hres
      exact ⟨tree', region.1, idx, region.2, (Except.ok.inj hres).symm⟩

/-- Where the tree of released units has a block, its branch finds one. -/
theorem takeFromReleased_some {tree : CartesianTree} (h : tree.Inv)
    (hfree : tree.freeUnits ⊆ Set.Iio layout.totalUnitCount) {table : UnitTable}
    (hblock : HasBlock tree (args.num % 2 ^ 32))
    {result : CartesianTree × UnitTable × Option (Nat × Nat)}
    (hres : takeFromReleased layout tree table args = .ok result) :
    ∃ tree' table' idx head, result = (tree', table', some (idx, head)) := by
  obtain ⟨-, tree', table₁, idx, hrun, -⟩ :=
    (runTake_spec h hfree table (args.num % 2 ^ 32)).resolve_left fun hno => hno.1 hblock
  simp only [takeFromReleased, hrun, bind, Except.bind] at hres
  cases hinit : initRegion layout table₁ idx args.num args.uclass with
  | error fault =>
    rw [hinit] at hres
    cases hres
  | ok region =>
    simp only [hinit] at hres
    split at hres
    · cases hclear : clearUnits layout idx args.num with
      | error fault =>
        rw [hclear] at hres
        cases hres
      | ok _ =>
        simp only [hclear] at hres
        exact ⟨tree', region.1, idx, region.2, (Except.ok.inj hres).symm⟩
    · exact ⟨tree', region.1, idx, region.2, (Except.ok.inj hres).symm⟩

/-- When both `TryLock`s of the first round succeed and a tree has a block for `UInt32(num)` units,
    a call that does not fault returns a region. -/
theorem takeRegionRun_some (hidle : ∃ r, s.pc t = .idle r) (hdirty : s.dirty.Inv)
    (hreleased : s.released.Inv) (hdirtyFree : s.dirty.freeUnits ⊆ Set.Iio layout.totalUnitCount)
    (hreleasedFree : s.released.freeUnits ⊆ Set.Iio layout.totalUnitCount)
    (hblock : HasBlock s.dirty (args.num % 2 ^ 32) ∨ HasBlock s.released (args.num % 2 ^ 32))
    {s' : State τ} (hrun : takeRegionRun layout s t args [(true, true)] = .ok s') :
    ∃ head, s'.pc t = .idle (.region (some head)) := by
  obtain ⟨r, hidle⟩ := hidle
  have hcall : exec layout s (.takeRegion t args) = .ok (s.goto t (.takeDirty args true true)) := by
    simp only [exec, hidle]
  have hpc : (s.goto t (.takeDirty args true true)).pc t = .takeDirty args true true :=
    Function.update_self _ _ _
  simp only [takeRegionRun, rounds, List.flatMap_cons, List.flatMap_nil, List.append_nil,
    List.foldlM_cons, List.foldlM_nil, hcall, bind, Except.bind] at hrun
  -- the section on the dirty tree comes first
  cases hfirst : exec layout (s.goto t (.takeDirty args true true)) (.tryLockDirty t true) with
  | error fault =>
    rw [hfirst] at hrun
    cases hrun
  | ok s₁ =>
    simp only [hfirst] at hrun
    simp only [exec, hpc, Bool.and_self, if_true, bind, Except.bind] at hfirst
    cases hsection : takeFromDirty layout (s.goto t (.takeDirty args true true)).dirty
        (s.goto t (.takeDirty args true true)).table args with
    | error fault =>
      rw [hsection] at hfirst
      cases hfirst
    | ok result =>
      simp only [hsection] at hfirst
      by_cases hdirtyBlock : HasBlock s.dirty (args.num % 2 ^ 32)
      · obtain ⟨tree', table', idx, head, rfl⟩ :=
          takeFromDirty_some hdirty hdirtyFree hdirtyBlock hsection
        have hpc₁ : s₁.pc t = .idle (.region (some head)) := by
          rw [← Except.ok.inj hfirst]
          exact Function.update_self _ _ _
        rw [(@exec_idle layout _ _ _ _ _ hpc₁ true).2] at hrun
        exact ⟨head, by rw [← Except.ok.inj hrun]; exact hpc₁⟩
      · -- the dirty tree has no block, so the released section runs
        have hnone : takeFromDirty layout s.dirty s.table args =
            .ok ({ s.dirty with regionCalls := [] }, s.table, none) := by
          obtain ⟨-, hrun⟩ := (runTake_spec hdirty hdirtyFree s.table
            (args.num % 2 ^ 32)).resolve_right fun hyes => hdirtyBlock hyes.1
          simp only [takeFromDirty, hrun, bind, Except.bind]
        obtain rfl := Except.ok.inj (hsection.symm.trans hnone)
        have hpc₁ : s₁.pc t = .takeReleased args false true := by
          rw [← Except.ok.inj hfirst]
          exact Function.update_self _ _ _
        have hreleased₁ : s₁.released = s.released := by
          rw [← Except.ok.inj hfirst]
          rfl
        simp only [exec, hpc₁, Bool.and_self, if_true, hreleased₁, bind, Except.bind] at hrun
        cases hsection' : takeFromReleased layout s.released s₁.table args with
        | error fault =>
          rw [hsection'] at hrun
          cases hrun
        | ok result =>
          simp only [hsection'] at hrun
          obtain ⟨tree', table', idx, head, rfl⟩ := takeFromReleased_some hreleased hreleasedFree
            (hblock.resolve_left hdirtyBlock) hsection'
          exact ⟨head, by rw [← Except.ok.inj hrun]; exact Function.update_self _ _ _⟩

/-- When the `TryLock`s of the first round succeed, a request that finds a block and is served
    exactly is a 32-bit count: the units of its region are units of the heap. -/
theorem TakesExactly.num_lt (hexact : TakesExactly layout s t args)
    (hidle : ∃ r, s.pc t = .idle r) (hdirty : s.dirty.Inv) (hreleased : s.released.Inv)
    (hdirtyFree : s.dirty.freeUnits ⊆ Set.Iio layout.totalUnitCount)
    (hreleasedFree : s.released.freeUnits ⊆ Set.Iio layout.totalUnitCount)
    (hblock : HasBlock s.dirty (args.num % 2 ^ 32) ∨ HasBlock s.released (args.num % 2 ^ 32)) :
    args.num < 2 ^ 32 := by
  obtain ⟨s', hrun, hres⟩ := hexact [(true, true)]
  obtain ⟨head, hpc⟩ := takeRegionRun_some hidle hdirty hreleased hdirtyFree hreleasedFree
    hblock hrun
  obtain ⟨result, heq, hresult, -⟩ := hres _ hpc
  obtain rfl : some head = result := Returned.region.inj heq
  have hsmall : ∀ tree tree' : CartesianTree, tree.freeUnits ⊆ Set.Iio layout.totalUnitCount →
      Served layout s'.table tree tree' args.num head → args.num < 2 ^ 32 := by
    intro tree tree' htree hserved
    obtain ⟨idx, hsub, -, -⟩ := hserved.units
    by_contra hge
    have hlast := htree (hsub ⟨Nat.le_add_right idx (args.num - 1), by omega⟩)
    have hfits := layout.idx_fits
    have : idx + (args.num - 1) < layout.totalUnitCount := hlast
    simp only [INVALID_IDX] at hfits
    omega
  cases hresult with
  | dirty hserved _ => exact hsmall _ _ hdirtyFree hserved
  | released hserved _ => exact hsmall _ _ hreleasedFree hserved

/-- **`TakeRegion` serves exactly what was asked**, for every outcome of the `TryLock`s, if and
    only if no tree has a block for a request that is not a 32-bit count. -/
theorem takeRegion_exact_iff (hidle : ∃ r, s.pc t = .idle r) (hdirty : s.dirty.Inv)
    (hreleased : s.released.Inv) (hdisj : Disjoint s.dirty.freeUnits s.released.freeUnits)
    (hfree : s.dirty.freeUnits ∪ s.released.freeUnits ⊆ Set.Iio layout.totalUnitCount) :
    TakesExactly layout s t args ↔
      (HasBlock s.dirty (args.num % 2 ^ 32) ∨ HasBlock s.released (args.num % 2 ^ 32) →
        args.num < 2 ^ 32) := by
  obtain ⟨hdirtyFree, hreleasedFree⟩ := Set.union_subset_iff.mp hfree
  constructor
  · intro hexact hblock
    exact hexact.num_lt hidle hdirty hreleased hdirtyFree hreleasedFree hblock
  · intro hcount locks
    obtain ⟨r, hidle⟩ := hidle
    have hcall : exec layout s (.takeRegion t args) =
        .ok (s.goto t (.takeDirty args true true)) := by simp only [exec, hidle]
    have hlooking : Looking s (s.goto t (.takeDirty args true true)) t args true true
        (.takeDirty args true true) :=
      ⟨Function.update_self _ _ _, .refl _, .refl _, fun h => absurd h (by decide),
        fun h => absurd h (by decide)⟩
    obtain ⟨s', hrun, hend⟩ := @rounds_looking layout _ _ _ _ _
      ⟨hdirty, hreleased, hdirtyFree, hreleasedFree, hcount⟩ locks _
      (Or.inl ⟨true, true, hlooking⟩)
    refine ⟨s', ?_, fun r' hpc => ?_⟩
    · rw [takeRegionRun, List.foldlM_cons, hcall]
      exact hrun
    · rcases hend with ⟨d, r, hlooking'⟩ | ⟨result, hpc', hresult, hnone⟩
      · rw [hlooking'.pc] at hpc
        cases hpc
      · rw [hpc'] at hpc
        exact ⟨result, (Pc.idle.inj hpc).symm, hresult, hnone⟩

end Loop

/-! ## The small heap -/

/-- The tree with the whole heap has the invariant. -/
theorem wholeHeap_inv : wholeHeap.Inv where
  sound :=
    { coalesced := by simp [wholeHeap, Blocks.Coalesced]
      pos := by simp [wholeHeap]
      bound := by simp [wholeHeap]
      total := rfl
      pool := ⟨by decide, by decide⟩ }
  heap := by simp [wholeHeap]

/-- Its free units are those of the heap. -/
theorem wholeHeap_freeUnits : wholeHeap.freeUnits = Set.Iio 4 := by
  ext u
  simp [CartesianTree.freeUnits, wholeHeap]

/-- All units are in the released tree. -/
def smallReleased : State Bool := { smallStart with released := wholeHeap }

/-- The units of the small state are free once, and within the heap. -/
theorem smallReleased_free :
    smallReleased.dirty.freeUnits ∪ smallReleased.released.freeUnits ⊆
      Set.Iio smallHeap.totalUnitCount ∧
    Disjoint smallReleased.dirty.freeUnits smallReleased.released.freeUnits := by
  have hdirty : smallReleased.dirty.freeUnits = ∅ := CartesianTree.freeUnits_init _
  rw [hdirty, Set.empty_union]
  exact ⟨wholeHeap_freeUnits.subset, Set.empty_disjoint _⟩

/-- `2 ^ 32 + 1` units are asked for, and one is taken. -/
theorem takeRegion_hugeRequest : ∃ (layout : HeapLayout) (s : State Bool) (args : TakeArgs),
    s.dirty.Inv ∧ s.released.Inv ∧ Disjoint s.dirty.freeUnits s.released.freeUnits ∧
      s.dirty.freeUnits ∪ s.released.freeUnits ⊆ Set.Iio layout.totalUnitCount ∧
      (∃ r, s.pc true = .idle r) ∧ ¬ TakesExactly layout s true args := by
  obtain ⟨hfree, hdisj⟩ := smallReleased_free
  have hdirty : smallReleased.dirty.Inv := CartesianTree.inv_init _
  refine ⟨smallHeap, smallReleased, hugeRequest, hdirty, wholeHeap_inv, hdisj, hfree,
    ⟨_, rfl⟩, fun hexact => ?_⟩
  obtain ⟨hdirtyFree, hreleasedFree⟩ := Set.union_subset_iff.mp hfree
  have hcount := hexact.num_lt ⟨_, rfl⟩ hdirty wholeHeap_inv hdirtyFree hreleasedFree
    (Or.inr ⟨by decide, ⟨0, 0, 4⟩, by simp [smallReleased, wholeHeap], by decide⟩)
  exact absurd hcount (by decide)

/-- Two units are asked for, and two are taken. -/
theorem takeRegion_smallRequest :
    TakesExactly smallHeap smallReleased true ⟨2, SMALL_SIZED_UNITS, false⟩ :=
  (takeRegion_exact_iff ⟨_, rfl⟩ (CartesianTree.inv_init _) wholeHeap_inv smallReleased_free.2
    smallReleased_free.1).mpr fun _ => by decide

end FreeRegionManager

end CangjieRuntime.Heap
