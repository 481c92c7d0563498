/-
  Region resolution: from any address of a region handed out back to the region.

  The unit table is rewritten from inside the tree operations and again when a region is stamped.
  The invariant relates the trees, the table and the regions outstanding:

    * a region's records say where it starts and ends, and every other unit of it points back to
      its head (`RegionRecords`);
    * the head of every free block says that the block is free and where it ends (`HeadsRecorded`);
    * an action writes only records of units that are free afterwards or that it just took, so the
      records of the other regions stay as they are.

  `TakeRegion` takes `UInt32(num)` units from a tree and stamps `num` of them.  A section that
  finds a block for a request of `2 ^ 32` units or more therefore writes into units that are not
  its own, which the last part shows on a heap of four units.
-/
import CangjieRuntime.Heap.UnitConservation

set_option linter.unusedVariables false

namespace CangjieRuntime.Heap

open SlotTree RegionInfo Runs Holdings

namespace FreeRegionManager

variable {layout : HeapLayout} {τ : Type}

/-! ## Statement -/

/-- The accessors and the address lookup agree with the region. -/
structure RegionResolves (layout : HeapLayout) (table : UnitTable) (r : Region) : Prop where
  unitCount : getUnitCount layout table r.head = .ok r.num
  start : getRegionStart layout r.head = .ok (layout.unitStart r.idx)
  size : getRegionSize layout table r.head = .ok (r.num * UNIT_SIZE)
  lookup : ∀ addr, layout.unitStart r.idx ≤ addr →
    addr < layout.unitStart r.idx + r.num * UNIT_SIZE →
    getRegionInfoAt layout table addr = .ok r.head

/-- Every region handed out resolves, and the head of every free block describes it. -/
structure Resolves (layout : HeapLayout) (s : State τ) : Prop where
  region : ∀ r ∈ s.regions, RegionResolves layout s.table r
  dirty : HeadsRecorded layout s.table s.dirty
  released : HeadsRecorded layout s.table s.released

/-- The regions that are there before and after a step keep their records. -/
def RecordsKept (layout : HeapLayout) (s s' : State τ) : Prop :=
  ∀ r ∈ s.regions, r ∈ s'.regions → ∀ u ∈ r.units,
    s'.table (layout.unitPtr u) = s.table (layout.unitPtr u)

/-- Regions are given back whole. -/
def Action.Whole (s : State τ) : Action τ → Prop
  | .addGarbageUnits _ idx num => ∀ r ∈ s.regions,
    (r.idx = idx ∧ r.num = num) ∨ Disjoint r.units (Set.Ico idx (idx + num))
  | .addReleaseUnits _ idx num => ∀ r ∈ s.regions,
    (r.idx = idx ∧ r.num = num) ∨ Disjoint r.units (Set.Ico idx (idx + num))
  | _ => True

/-- What callers promise: they give away only what they have, and regions whole. -/
def Action.Promised (s : State τ) (a : Action τ) : Prop := a.Owned s ∧ a.Whole s

/-- A section of `TakeRegion` that finds a block does so for a 32-bit count of units and for a
    role other than that of a subordinate unit. -/
def Action.ServesExactly (s : State τ) (a : Action τ) : Prop :=
  ∀ args, a.Serves s args → args.num < 2 ^ 32 ∧ args.uclass % 16 ≠ SUBORDINATE_UNIT

/-! ## Invariant -/

/-- The invariant, in terms of the records.  The units are conserved, the heads of all free blocks
    are recorded, and every region handed out has the records that resolving an address in it reads.
    -/
structure Resolved (layout : HeapLayout) (s : State τ) : Prop where
  conserved : Conserved layout s
  dirty : HeadsRecorded layout s.table s.dirty
  released : HeadsRecorded layout s.table s.released
  nonempty : ∀ r ∈ s.regions, 0 < r.num
  head : ∀ r ∈ s.regions, r.head = layout.unitPtr r.idx
  owned : ∀ r ∈ s.regions, r.units ⊆ callerUnits s
  records : ∀ r ∈ s.regions, RegionRecords layout s.table r.idx r.num

/-- Units of callers are units of the heap, and not free. -/
theorem Conserved.callerUnits_lt {s : State τ} (h : Conserved layout s) {u : Nat}
    (hu : u ∈ callerUnits s) : u < layout.totalUnitCount := by
  obtain ⟨t, ht⟩ := hu
  exact h.units.subset (.owner t) ht

/-- Units that a caller has are free in neither tree. -/
theorem Conserved.callerUnits_not_free {s : State τ} (h : Conserved layout s) {u : Nat}
    (hu : u ∈ callerUnits s) : u ∉ s.dirty.freeUnits ∪ s.released.freeUnits := by
  obtain ⟨t, ht⟩ := hu
  rintro (hd | hr)
  · cases h.units.disjoint (.owner t) .dirty u ht hd
  · cases h.units.disjoint (.owner t) .released u ht hr

/-- The invariant gives what is asked for. -/
theorem Resolved.resolves {s : State τ} (h : Resolved layout s) : Resolves layout s where
  region := by
    intro r hr
    have hpos := h.nonempty r hr
    have hfit : r.idx + r.num ≤ layout.totalUnitCount := by
      have hlast : r.idx + r.num - 1 < layout.totalUnitCount :=
        h.conserved.callerUnits_lt (h.owned r hr ⟨by omega, by omega⟩)
      omega
    obtain ⟨hstart, hsize, hcount, hlookup⟩ := region_resolves (h.records r hr) hpos hfit
    rw [← h.head r hr] at hstart hsize hcount hlookup
    exact ⟨hcount, hstart, hsize, hlookup⟩
  dirty := h.dirty
  released := h.released

/-- A region that is there before and after an action is still with the callers, and its records
    are not written. -/
theorem Resolved.kept {a : Action τ} {s s' : State τ} (h : Resolved layout s)
    (h' : Conserved layout s') (he : Effect layout a s s') (hwhole : a.Whole s) {r : Region}
    (hr : r ∈ s.regions) (hr' : r ∈ s'.regions) :
    r.units ⊆ callerUnits s' ∧
      ∀ u ∈ r.units, s'.table (layout.unitPtr u) = s.table (layout.unitPtr u) := by
  obtain ⟨taken, hchange, htrees⟩ := he.regions
  have hown := h.owned r hr
  -- it is enough that the units stay with the callers and are not the ones just taken
  have hkeep : r.units ⊆ callerUnits s' → Disjoint r.units taken →
      r.units ⊆ callerUnits s' ∧
        ∀ u ∈ r.units, s'.table (layout.unitPtr u) = s.table (layout.unitPtr u) := by
    intro hown' hdisj
    refine ⟨hown', fun u hu => htrees.same u (h'.callerUnits_lt (hown' hu)) ?_⟩
    rintro (hfree | htaken)
    · exact h'.callerUnits_not_free (hown' hu) hfree
    · exact Set.disjoint_left.mp hdisj hu htaken
  cases hchange with
  | none hregions hgrow => exact hkeep (hown.trans hgrow) (Set.disjoint_empty _)
  | taken new args hregions hhead hgrow hnum hfree hnew hserves hrec =>
    refine hkeep (hown.trans hgrow) (Set.disjoint_left.mpr fun u hu hnewu => ?_)
    exact h.conserved.callerUnits_not_free (hown hu) (hfree hnewu)
  | given t idx num ha hregions hgrow =>
    have hdisj : Disjoint r.units (Set.Ico idx (idx + num)) := by
      have hnot : ¬ (r.idx = idx ∧ r.num = num) := by
        rw [hregions] at hr'
        exact hr'.2
      rcases ha with rfl | rfl
      · exact (hwhole r hr).resolve_left hnot
      · exact (hwhole r hr).resolve_left hnot
    refine hkeep (fun u hu => hgrow ⟨hown hu, ?_⟩) (Set.disjoint_empty _)
    exact Set.disjoint_left.mp hdisj hu

/-- One action keeps the invariant. -/
theorem Resolved.step {a : Action τ} {s s' : State τ} (h : Resolved layout s)
    (he : Effect layout a s s') (hwhole : a.Whole s) (hexact : a.ServesExactly s) :
    Resolved layout s' := by
  have h' := he.conserved h.conserved
  obtain ⟨taken, hchange, htrees⟩ := he.regions
  obtain ⟨hdirty, hreleased⟩ := htrees.heads h.dirty h.released
  -- a region is an old one, or the one the action made
  have hcases : ∀ r ∈ s'.regions, r ∈ s.regions ∨ (0 < r.num ∧ r.head = layout.unitPtr r.idx ∧
      r.units ⊆ callerUnits s' ∧ RegionRecords layout s'.table r.idx r.num) := by
    intro r hr
    cases hchange with
    | none hregions hgrow => exact Or.inl (hregions ▸ hr)
    | taken new args hregions hhead hgrow hnum hfree hnew hserves hrec =>
      rw [hregions] at hr
      rcases hr with rfl | hr
      · exact Or.inr ⟨hnum, hhead, hnew, hrec (hexact args hserves).2⟩
      · exact Or.inl hr
    | given t idx num ha hregions hgrow =>
      rw [hregions] at hr
      exact Or.inl hr.1
  have hold : ∀ r ∈ s'.regions, r ∈ s.regions →
      r.units ⊆ callerUnits s' ∧ RegionRecords layout s'.table r.idx r.num := by
    intro r hr' hr
    obtain ⟨hown, htable⟩ := h.kept h' he hwhole hr hr'
    exact ⟨hown, (h.records r hr).congr (h.nonempty r hr) htable⟩
  refine ⟨h', hdirty, hreleased, fun r hr => ?_, fun r hr => ?_, fun r hr => ?_, fun r hr => ?_⟩
  · exact (hcases r hr).elim (h.nonempty r) fun hnew => hnew.1
  · exact (hcases r hr).elim (h.head r) fun hnew => hnew.2.1
  · exact (hcases r hr).elim (fun hr' => (hold r hr hr').1) fun hnew => hnew.2.2.1
  · exact (hcases r hr).elim (fun hr' => (hold r hr hr').2) fun hnew => hnew.2.2.2

/-! ## Every run -/

variable [DecidableEq τ]

/-- The runs in which callers keep their promise. -/
def promised (layout : HeapLayout) : System (State τ) (Action τ) :=
  (machine layout).guarded Action.Promised

/-- Those of them in which requests that are served are exact. -/
def exactRuns (layout : HeapLayout) : System (State τ) (Action τ) :=
  (promised layout).guarded Action.ServesExactly

/-- A run goes on with a step that keeps the promises. -/
theorem promised_step (layout : HeapLayout) {s s' : State τ} (a : Action τ)
    (h : (promised layout).Reachable s) (howned : a.Owned s) (hwhole : a.Whole s)
    (hexec : exec layout s a = .ok s') : (promised layout).Reachable s' :=
  h.step ⟨⟨howned, hwhole⟩, hexec⟩

/-- A run goes on with a step that serves exactly what it was asked for. -/
theorem exactRuns_step (layout : HeapLayout) {s s' : State τ} (a : Action τ)
    (h : (exactRuns layout).Reachable s) (howned : a.Owned s) (hwhole : a.Whole s)
    (hexact : a.ServesExactly s) (hexec : exec layout s a = .ok s') : (exactRuns layout).Reachable s' :=
  h.step ⟨hexact, ⟨howned, hwhole⟩, hexec⟩

omit [DecidableEq τ] in
/-- At first nobody has a region. -/
theorem State.Initial.resolved {s : State τ} (h : s.Initial layout) : Resolved layout s := by
  obtain ⟨db, hdirty⟩ := h.dirty
  obtain ⟨rb, hreleased⟩ := h.released
  have hnone : ∀ r : Region, r ∉ s.regions := by simp [h.regions]
  refine ⟨h.conserved, ?_, ?_, fun r hr => absurd hr (hnone r), fun r hr => absurd hr (hnone r),
    fun r hr => absurd hr (hnone r), fun r hr => absurd hr (hnone r)⟩
  · simp [HeadsRecorded, hdirty, CartesianTree.init]
  · simp [HeadsRecorded, hreleased, CartesianTree.init]

/-- The invariant holds in every such run. -/
theorem resolved_invariant :
    (exactRuns layout : System (State τ) _).Invariant (Resolved layout) where
  init s hs := hs.resolved
  step s a s' h hstep := by
    obtain ⟨hexact, ⟨howned, hwhole⟩, hexec⟩ := hstep
    obtain ⟨s'', hs'', he⟩ := exec_effect h.conserved howned fun args hs => (hexact args hs).1
    obtain rfl : s'' = s' := Except.ok.inj (hs''.symm.trans hexec)
    exact h.step he hwhole hexact

/-- **Region resolution.**  In every state that a run of exact requests reaches, all regions handed
    out resolve and all free blocks are described; the next action keeps the records of the regions
    that stay. -/
theorem reachable_resolves {s : State τ} (h : (exactRuns layout).Reachable s) :
    Resolves layout s ∧ ∀ a s', (exactRuns layout).step s a s' → RecordsKept layout s s' := by
  have hinv := resolved_invariant.reachable h
  refine ⟨hinv.resolves, fun a s' hstep r hr hr' => ?_⟩
  obtain ⟨hexact, ⟨howned, hwhole⟩, hexec⟩ := hstep
  obtain ⟨s'', hs'', he⟩ :=
    exec_effect hinv.conserved howned fun args hs => (hexact args hs).1
  obtain rfl : s'' = s' := Except.ok.inj (hs''.symm.trans hexec)
  exact (hinv.kept (he.conserved hinv.conserved) he hwhole hr hr').2

/-- A region of two units, taken from the small heap. -/
theorem reachable_resolves_taken : ∃ s : State Bool, (exactRuns smallHeap).Reachable s ∧
    ⟨2 ^ 40 - 88, 0, 2⟩ ∈ s.regions ∧ Resolves smallHeap s ∧
    ∀ a s', (exactRuns smallHeap).step s a s' → RecordsKept smallHeap s s' := by
  have h₁ := exactRuns_step smallHeap (.addGarbageUnits false 0 4) (.init smallStart_initial)
    ⟨by decide, fun u hu => hu.2⟩ (fun r hr => absurd hr (by simp [smallStart]))
    (fun _ hs => hs.elim) rfl
  have h₂ := exactRuns_step smallHeap (.takeRegion true ⟨2, SMALL_SIZED_UNITS, false⟩) h₁
    trivial trivial (fun _ hs => hs.elim) rfl
  have h₃ := exactRuns_step smallHeap (.tryLockDirty true true) h₂ trivial trivial
    (by
      rintro args ⟨-, ⟨r, hpc⟩, -⟩
      injection hpc with hargs
      rw [← hargs]
      decide) rfl
  exact ⟨_, h₃, Set.mem_insert _ _, reachable_resolves h₃⟩

/-! ## Requests that are not 32-bit counts -/

/-- The loop of `InitRegion` turns records into those of subordinate units and never back. -/
theorem initSubordinates_role (region n todo : Nat) :
    ∀ i table, i + todo = n → ∃ table', initSubordinates region n todo i table = .ok table' ∧
      ∀ a, unitRole (table a) = SUBORDINATE_UNIT → unitRole (table' a) = SUBORDINATE_UNIT := by
  induction todo with
  | zero => exact fun i table _ => ⟨table, rfl, fun a ha => ha⟩
  | succ todo ih =>
    intro i table hn
    obtain ⟨unit, hunit⟩ : ∃ unit, unitInfoArrayGet region n i = .ok unit := by
      unfold unitInfoArrayGet
      rw [if_neg (by omega)]
      exact ⟨_, rfl⟩
    obtain ⟨table', hres, hrole⟩ :=
      ih (i + 1) (initSubordinateUnit table unit region) (by omega)
    refine ⟨table', ?_, fun a ha => hrole a ?_⟩
    · simp only [initSubordinates, hunit, bind, Except.bind]
      exact hres
    · unfold initSubordinateUnit
      by_cases hau : a = unit
      · subst hau
        rw [Function.update_self]
        exact unitRole_setUnitRole _ _
      · rw [Function.update_of_ne hau]
        exact ha

/-- The loop of `InitRegion` over `todo + 1` units makes the first of them a subordinate unit,
    wherever that unit is. -/
theorem initSubordinates_first {region n unit : Nat} (todo i : Nat) (table : UnitTable)
    (hn : i + (todo + 1) = n) (hunit : unitInfoArrayGet region n i = .ok unit) :
    ∃ table', initSubordinates region n (todo + 1) i table = .ok table' ∧
      unitRole (table' unit) = SUBORDINATE_UNIT := by
  obtain ⟨table', hres, hrole⟩ := initSubordinates_role region n todo (i + 1)
    (initSubordinateUnit table unit region) (by omega)
  refine ⟨table', ?_, hrole unit ?_⟩
  · simp only [initSubordinates, hunit, bind, Except.bind]
    exact hres
  · unfold initSubordinateUnit
    rw [Function.update_self]
    exact unitRole_setUnitRole _ _

/-- Stamping a region of two units or more makes the unit after its head a subordinate unit, no
    matter whose unit it is. -/
theorem initRegion_second {idx num region unit : Nat} {uclass : UnitRole} {table : UnitTable}
    (hnum : 1 < num) (hregion : getUnitInfo layout idx = .ok region)
    (hinit : ∃ table₁, initRegionInfo layout table region num uclass = .ok table₁)
    (hunit : unitInfoArrayGet region num 1 = .ok unit) :
    ∃ table', initRegion layout table idx num uclass = .ok (table', region) ∧
      unitRole (table' unit) = SUBORDINATE_UNIT := by
  obtain ⟨todo, rfl⟩ : ∃ todo, num = todo + 2 := ⟨num - 2, by omega⟩
  obtain ⟨table₁, hinit⟩ := hinit
  obtain ⟨table', hres, hrole⟩ := initSubordinates_first todo 1 table₁ (by omega) hunit
  refine ⟨table', ?_, hrole⟩
  simp only [initRegion, hregion, hinit, bind, Except.bind,
    show todo + 2 - 1 = todo + 1 from rfl, hres]

/-- A request that the tree of released units serves. -/
theorem takeFromReleased_eq {tree tree' : CartesianTree} {table table₁ table' : UnitTable}
    {args : TakeArgs} {idx region : Nat}
    (htake : runTree layout tree table (·.takeUnitsLowAddr (args.num % 2 ^ 32) true) =
      .ok (tree', table₁, some idx))
    (hinit : initRegion layout table₁ idx args.num args.uclass = .ok (table', region))
    (hmem : args.expectPhysicalMem = false) :
    takeFromReleased layout tree table args = .ok (tree', table', some (idx, region)) := by
  simp only [takeFromReleased, htake, hinit, hmem, bind, Except.bind]
  rfl

/-- The section that found units there ends the call. -/
theorem exec_tryLockReleased_some {s : State τ} {t : τ}
    {args : TakeArgs} {d : Bool} {tree : CartesianTree} {table : UnitTable} {idx region : Nat}
    (hpc : s.pc t = .takeReleased args d true)
    (hsection : takeFromReleased layout s.released s.table args =
      .ok (tree, table, some (idx, region))) :
    exec layout s (.tryLockReleased t true) = .ok ({ s with released := tree, table := table }.taken
      t idx (args.num % 2 ^ 32) region) := by
  simp only [exec, hpc, hsection, Bool.and_self, if_true, bind, Except.bind]

/-- The released tree after the whole small heap was given to it. -/
def wholeHeap : CartesianTree where
  totalCount := 4
  root := .node ⟨0, 0, 4⟩ .nil .nil
  nodeAllocator := ⟨[], 24⟩
  regionCalls := [.initFreeRegion 0 4]

/-- The request that is served with one unit and stamped as `2 ^ 32 + 1`. -/
def hugeRequest : TakeArgs := ⟨2 ^ 32 + 1, SMALL_SIZED_UNITS, false⟩

/-- The released section serves `hugeRequest` from a block of the whole small heap. -/
theorem takeFromReleased_hugeRequest (table : UnitTable) :
    ∃ tree' table', takeFromReleased smallHeap wholeHeap table hugeRequest =
        .ok (tree', table', some (0, smallHeap.unitPtr 0)) ∧
      tree'.root = .node ⟨0, 1, 3⟩ .nil .nil ∧
      unitRole (table' (smallHeap.unitPtr 1)) = SUBORDINATE_UNIT := by
  obtain ⟨tree', table₁, htake, hroot⟩ : ∃ tree' table₁,
      runTree smallHeap wholeHeap table (·.takeUnitsLowAddr 1 true) = .ok (tree', table₁, some 0) ∧
        tree'.root = .node ⟨0, 1, 3⟩ .nil .nil
    := ⟨_, _, rfl, rfl⟩
  have hsecond : unitInfoArrayGet (smallHeap.unitPtr 0) hugeRequest.num 1 =
      .ok (smallHeap.unitPtr 1) := by decide
  have hfirst : 0 < smallHeap.totalUnitCount := by decide
  obtain ⟨table', hinit, hrole⟩ : ∃ table',
      initRegion smallHeap table₁ 0 hugeRequest.num hugeRequest.uclass =
        .ok (table', smallHeap.unitPtr 0) ∧
      unitRole (table' (smallHeap.unitPtr 1)) = SUBORDINATE_UNIT :=
    initRegion_second (by decide) (getUnitInfo_eq hfirst) ⟨_, initRegionInfo_eq hfirst _ _ _⟩
      hsecond
  refine ⟨tree', table', ?_, hroot, hrole⟩
  have hnum : hugeRequest.num % 2 ^ 32 = 1 := by decide
  exact takeFromReleased_eq (by rw [hnum]; exact htake) hinit rfl

/-- **A request of `2 ^ 32 + 1` units.**  The section takes unit 0 from the released tree and
    overwrites the head record of the free block of units 1 to 3. -/
theorem hugeRequest_not_resolves :
    ∃ s : State Bool, (promised smallHeap).Reachable s ∧ ¬ Resolves smallHeap s := by
  -- the heap is given to the released tree, and the dirty mutex is not acquired
  have h₁ := promised_step smallHeap (.addReleaseUnits false 0 4) (.init smallStart_initial)
    ⟨by decide, fun u hu => hu.2⟩ (fun r hr => absurd hr (by simp [smallStart])) rfl
  have h₂ := promised_step smallHeap (.takeRegion true hugeRequest) h₁ trivial trivial rfl
  have h₃ := promised_step smallHeap (.tryLockDirty true false) h₂ trivial trivial rfl
  obtain ⟨s, hreach, hreleased, hpc⟩ : ∃ s : State Bool, (promised smallHeap).Reachable s ∧
      s.released = wholeHeap ∧ s.pc true = .takeReleased hugeRequest true true :=
    ⟨_, h₃, rfl, rfl⟩
  obtain ⟨tree, table, hsection, hroot, hrole⟩ := takeFromReleased_hugeRequest s.table
  have hexec : exec smallHeap s (.tryLockReleased true true) =
      .ok ({ s with released := tree, table := table }.taken true 0
        (hugeRequest.num % 2 ^ 32) (smallHeap.unitPtr 0)) :=
    exec_tryLockReleased_some hpc (by rw [hreleased]; exact hsection)
  refine ⟨_, promised_step smallHeap (.tryLockReleased true true) hreach trivial trivial hexec,
    fun h => ?_⟩
  have hhead := (h.released ⟨0, 1, 3⟩ (by
    show _ ∈ inorder tree.root
    rw [hroot]
    simp)).role
  have hconflict : SUBORDINATE_UNIT = FREE_UNITS := hrole.symm.trans hhead
  exact absurd hconflict (by decide)

end FreeRegionManager

end CangjieRuntime.Heap
