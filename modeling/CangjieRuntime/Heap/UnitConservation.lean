/-
  Unit conservation in the free region manager.

  At every moment each unit of the heap is with exactly one holder: the dirty tree, the released
  tree, a caller, or a `ReleaseGarbageRegions` between its two lock sections.  Every action moves
  one set of units (often the empty one) from one holder to another, which is what `Effect` says;
  the partition then follows from conservation of moves, for any number of threads and any order
  of steps.  The same case analysis shows that no action faults, so the `RtFatal` behind a failed
  `MergeInsert` is not reachable.
-/
import CangjieRuntime.Heap.ManagerSections

set_option linter.unusedVariables false

namespace CangjieRuntime.Heap

open SlotTree RegionInfo Runs Holdings

namespace FreeRegionManager

variable {layout : HeapLayout} {τ : Type}

/-! ## Holders -/

/-- Who can hold a unit.  The two trees, a thread that was handed regions, and a thread that carries
    a block from one section to the next. -/
inductive Holder (τ : Type)
  | dirty
  | released
  | owner (t : τ)
  | transit (t : τ)
  deriving DecidableEq

/-- The block a thread holds between its two lock sections. -/
def Pc.inTransit : Pc → Set Nat
  | .releaseMerge _ _ idx num => Set.Ico idx (idx + num)
  | _ => ∅

/-- What each holder holds. -/
def holding (s : State τ) : Holder τ → Set Nat
  | .dirty => s.dirty.freeUnits
  | .released => s.released.freeUnits
  | .owner t => s.owned t
  | .transit t => (s.pc t).inTransit

@[simp] theorem holding_dirty (s : State τ) : holding s .dirty = s.dirty.freeUnits := rfl
@[simp] theorem holding_released (s : State τ) : holding s .released = s.released.freeUnits := rfl
@[simp] theorem holding_owner (s : State τ) (t : τ) : holding s (.owner t) = s.owned t := rfl
@[simp] theorem holding_transit (s : State τ) (t : τ) :
    holding s (.transit t) = (s.pc t).inTransit := rfl

/-- Blocks in transit are not empty.  A thread between two sections carries a block that is in no
    tree. -/
def Pc.Ok : Pc → Prop
  | .releaseMerge _ _ _ num => 0 < num
  | _ => True

/-- The invariant: sound trees, program counters in range, and every unit with one holder. -/
structure Conserved (layout : HeapLayout) (s : State τ) : Prop where
  dirty : s.dirty.Inv
  released : s.released.Inv
  pc : ∀ t, (s.pc t).Ok
  units : Partitions (holding s) (Set.Iio layout.totalUnitCount)

/-- What one holder has, no other has. -/
theorem Conserved.disjoint {s : State τ} (h : Conserved layout s) (i j : Holder τ) (hij : i ≠ j)
    {w : Set Nat} (hw : w ⊆ holding s j) : Disjoint (holding s i) w :=
  h.units.disjoint_of_subset hij hw

/-- The dirty units are units of the heap. -/
theorem Conserved.dirty_free {s : State τ} (h : Conserved layout s) :
    s.dirty.freeUnits ⊆ Set.Iio layout.totalUnitCount := h.units.subset .dirty

/-- So are the released ones. -/
theorem Conserved.released_free {s : State τ} (h : Conserved layout s) :
    s.released.freeUnits ⊆ Set.Iio layout.totalUnitCount := h.units.subset .released

/-! ## What an action does -/

/-- The units some caller has. -/
def callerUnits (s : State τ) : Set Nat := {u | ∃ t, u ∈ s.owned t}

/-- The arguments of the `TakeRegion` a program counter is in. -/
def Pc.takeArgs : Pc → Option TakeArgs
  | .takeDirty args _ _ => some args
  | .takeReleased args _ _ => some args
  | _ => none

/-- What the action does to the regions handed out, with the units of the region it made: nothing;
    a new region, of units that were free; or a block goes that its caller gave away. -/
inductive RegionChange (layout : HeapLayout) (a : Action τ) (s s' : State τ) : Set Nat → Prop
  | none (hregions : s'.regions = s.regions) (hown : callerUnits s ⊆ callerUnits s') :
      RegionChange layout a s s' ∅
  | taken (r : Region) (args : TakeArgs) (hregions : s'.regions = insert r s.regions)
      (hhead : r.head = layout.unitPtr r.idx) (hown : callerUnits s ⊆ callerUnits s') (hnum : 0 < r.num)
      (hfree : r.units ⊆ s.dirty.freeUnits ∪ s.released.freeUnits)
      (hnew : r.units ⊆ callerUnits s') (hserves : a.Serves s args)
      (hrec : args.uclass % 16 ≠ SUBORDINATE_UNIT →
        RegionRecords layout s'.table r.idx r.num) : RegionChange layout a s s' r.units
  | given (t : τ) (idx num : Nat)
      (ha : a = .addGarbageUnits t idx num ∨ a = .addReleaseUnits t idx num)
      (hregions : s'.regions = s.regions \ {r | r.idx = idx ∧ r.num = num})
      (hown : callerUnits s \ Set.Ico idx (idx + num) ⊆ callerUnits s') : RegionChange layout a s s' ∅

/-- What a section leaves of the trees and the table: the invariants, records written only for
    units that are free afterwards or in `taken`, and the heads of all free blocks recorded. -/
structure TreesOk (layout : HeapLayout) (s s' : State τ) (taken : Set Nat) : Prop where
  dirty : s'.dirty.Inv
  released : s'.released.Inv
  heads : HeadsRecorded layout s.table s.dirty → HeadsRecorded layout s.table s.released →
    HeadsRecorded layout s'.table s'.dirty ∧ HeadsRecorded layout s'.table s'.released
  same : SameOutside layout (s'.dirty.freeUnits ∪ s'.released.freeUnits ∪ taken) s.table s'.table

/-- Some units move from one holder to another.  What one holder loses another one has gained, and
    nobody else is touched: every section is such a step. -/
def Moves (s s' : State τ) : Prop :=
  ∃ giver taker moved, giver ≠ taker ∧ moved ⊆ holding s giver ∧
    holding s' giver = holding s giver \ moved ∧ holding s' taker = holding s taker ∪ moved ∧
    ∀ h, h ≠ giver → h ≠ taker → holding s' h = holding s h

/-- **One action**: a move of units, sound trees, program counters in range, and at most one region
    made or given back. -/
structure Effect (layout : HeapLayout) (a : Action τ) (s s' : State τ) : Prop where
  move : Moves s s'
  pc : ∀ t, (s'.pc t).Ok
  args : ∀ t args, (s'.pc t).takeArgs = some args →
    (s.pc t).takeArgs = some args ∨ a = .takeRegion t args
  regions : ∃ taken, RegionChange layout a s s' taken ∧ TreesOk layout s s' taken

/-- A step that moves nothing. -/
theorem moves_nothing {s s' : State τ} (h : ∀ h, holding s' h = holding s h) : Moves s s' :=
  ⟨.dirty, .released, ∅, by simp, by simp, by simp [h], by simp [h], fun k _ _ => h k⟩

/-- The heads of the tree a section did not work on. -/
theorem heads_of_other {other : CartesianTree} {table table' : UnitTable} {w : Set Nat}
    (hinv : other.Inv) (hfree : other.freeUnits ⊆ Set.Iio layout.totalUnitCount)
    (hsame : SameOutside layout w table table') (hdisj : Disjoint other.freeUnits w)
    (h : HeadsRecorded layout table other) : HeadsRecorded layout table' other := by
  intro n hn
  have hmem := index_mem_freeUnits hinv hn
  exact (h n hn).congr (hsame n.index (hfree hmem) (Set.disjoint_left.mp hdisj hmem))

/-- A step that touches neither tree takes nothing from them. -/
theorem treesOk_refl {s s' : State τ} (h : Conserved layout s) (hd : s'.dirty = s.dirty)
    (hr : s'.released = s.released) (ht : s'.table = s.table) : TreesOk layout s s' ∅ where
  dirty := by rw [hd]; exact h.dirty
  released := by rw [hr]; exact h.released
  heads := by rw [hd, hr, ht]; exact fun hd hr => ⟨hd, hr⟩
  same := by rw [ht]; exact SameOutside.refl _ _

/-- What a step takes shows in its trees and its table alone. -/
theorem TreesOk.congr {s s₁ s' : State τ} {taken : Set Nat} (h : TreesOk layout s s₁ taken)
    (hd : s'.dirty = s₁.dirty) (hr : s'.released = s₁.released) (ht : s'.table = s₁.table) :
    TreesOk layout s s' taken where
  dirty := by rw [hd]; exact h.dirty
  released := by rw [hr]; exact h.released
  heads := by rw [hd, hr, ht]; exact h.heads
  same := by rw [hd, hr, ht]; exact h.same

/-- A section on the dirty tree. -/
theorem treesOk_dirty {s s' : State τ} (h : Conserved layout s) {taken : Set Nat}
    (hok : SectionOk layout s.dirty s'.dirty s.table s'.table taken)
    (hr : s'.released = s.released)
    (hdisj : Disjoint s.released.freeUnits (s'.dirty.freeUnits ∪ taken)) :
    TreesOk layout s s' taken where
  dirty := hok.inv
  released := by rw [hr]; exact h.released
  heads := by
    intro hdirty hreleased
    rw [hr]
    exact ⟨hok.heads hdirty, heads_of_other h.released h.released_free hok.same hdisj hreleased⟩
  same := hok.same.mono (Set.union_subset_union_left _ Set.subset_union_left)

/-- A section on the released tree. -/
theorem treesOk_released {s s' : State τ} (h : Conserved layout s) {taken : Set Nat}
    (hok : SectionOk layout s.released s'.released s.table s'.table taken)
    (hd : s'.dirty = s.dirty)
    (hdisj : Disjoint s.dirty.freeUnits (s'.released.freeUnits ∪ taken)) :
    TreesOk layout s s' taken where
  dirty := by rw [hd]; exact h.dirty
  released := hok.inv
  heads := by
    intro hdirty hreleased
    rw [hd]
    exact ⟨heads_of_other h.dirty h.dirty_free hok.same hdisj hdirty, hok.heads hreleased⟩
  same := hok.same.mono (Set.union_subset_union_left _ Set.subset_union_right)

/-! ## The effect of each kind of step -/

/-- One step keeps the invariant. -/
theorem Effect.conserved {a : Action τ} {s s' : State τ} (h : Conserved layout s)
    (he : Effect layout a s s') : Conserved layout s' := by
  obtain ⟨giver, taker, moved, hne, hsub, hgiver, htaker, hother⟩ := he.move
  obtain ⟨taken, -, htrees⟩ := he.regions
  exact ⟨htrees.dirty, htrees.released, he.pc, h.units.move hne hsub hgiver htaker hother⟩

/-- A new manager: all units are with the callers. -/
theorem State.Initial.conserved {s : State τ} (h : s.Initial layout) : Conserved layout s := by
  obtain ⟨db, hdirty⟩ := h.dirty
  obtain ⟨rb, hreleased⟩ := h.released
  have hempty : ∀ k, (∀ t, k ≠ .owner t) → holding s k = ∅ := by
    intro k hk
    cases k with
    | dirty => rw [holding_dirty, hdirty, CartesianTree.freeUnits_init]
    | released => rw [holding_released, hreleased, CartesianTree.freeUnits_init]
    | owner t => exact absurd rfl (hk t)
    | transit t => rw [holding_transit, h.idle]; rfl
  have howner : ∀ k u, u ∈ holding s k → ∃ t, k = .owner t := by
    intro k u hu
    by_contra hnone
    rw [hempty k fun t ht => hnone ⟨t, ht⟩] at hu
    exact Set.notMem_empty u hu
  refine ⟨by rw [hdirty]; exact CartesianTree.inv_init _,
    by rw [hreleased]; exact CartesianTree.inv_init _, fun t => by rw [h.idle]; trivial, ?_, ?_⟩
  · intro u
    rw [h.owned.cover]
    constructor
    · rintro ⟨t, ht⟩
      exact ⟨.owner t, ht⟩
    · rintro ⟨k, hk⟩
      obtain ⟨t, rfl⟩ := howner k u hk
      exact ⟨t, hk⟩
  · intro i j u hi hj
    obtain ⟨t, rfl⟩ := howner i u hi
    obtain ⟨t', rfl⟩ := howner j u hj
    exact congrArg Holder.owner (h.owned.disjoint t t' u hi hj)

/-- A step that changes nothing. -/
theorem effect_stay {s : State τ} (h : Conserved layout s) (a : Action τ) :
    Effect layout a s s where
  move := moves_nothing fun _ => rfl
  pc := h.pc
  args := fun _ _ hargs => Or.inl hargs
  regions := ⟨∅, .none rfl fun u hu => hu, treesOk_refl h rfl rfl rfl⟩

variable [DecidableEq τ]

/-- A step of one thread leaves where the others are. -/
theorem pcOk_update {pc : τ → Pc} (h : ∀ t, (pc t).Ok) (t : τ) {p : Pc} (hp : p.Ok) :
    ∀ u, (Function.update pc t p u).Ok := by
  intro u
  by_cases hu : u = t
  · subst hu
    rw [Function.update_self]; exact hp
  · rw [Function.update_of_ne hu]; exact h u

/-- The only new arguments are those of thread `t`. -/
theorem takeArgs_update {a : Action τ} {pc : τ → Pc} (t : τ) {p : Pc}
    (hp : ∀ args, p.takeArgs = some args → (pc t).takeArgs = some args ∨ a = .takeRegion t args) :
    ∀ u args, (Function.update pc t p u).takeArgs = some args →
      (pc u).takeArgs = some args ∨ a = .takeRegion u args := by
  intro u args hargs
  by_cases hu : u = t
  · subst hu
    rw [Function.update_self] at hargs
    exact hp args hargs
  · rw [Function.update_of_ne hu] at hargs
    exact Or.inl hargs

/-- Units in transit with the other threads stay there. -/
theorem inTransit_update {pc : τ → Pc} (t : τ) {p : Pc} (u : τ) (hp : u = t → p.inTransit =
    (pc t).inTransit) : (Function.update pc t p u).inTransit = (pc u).inTransit := by
  by_cases hu : u = t
  · subst hu
    rw [Function.update_self]; exact hp rfl
  · rw [Function.update_of_ne hu]

/-- A step after which a thread is elsewhere, with the same units in every tree. -/
theorem effect_goto {s : State τ} (s₁ : State τ) (h : Conserved layout s) (a : Action τ) (t : τ)
    {p : Pc} (hpc : s₁.pc = s.pc) (howned : s₁.owned = s.owned) (hregions : s₁.regions = s.regions)
    (hdirty : s₁.dirty.freeUnits = s.dirty.freeUnits)
    (hreleased : s₁.released.freeUnits = s.released.freeUnits)
    (htrees : TreesOk layout s s₁ ∅)
    (htransit : p.inTransit = (s.pc t).inTransit) (hok : p.Ok)
    (hargs : ∀ args, p.takeArgs = some args →
      (s.pc t).takeArgs = some args ∨ a = .takeRegion t args) :
    Effect layout a s (s₁.goto t p) where
  move := moves_nothing (by
    intro k
    cases k with
    | dirty => exact hdirty
    | released => exact hreleased
    | owner u => exact congrFun howned u
    | transit u =>
      show (Function.update s₁.pc t p u).inTransit = (s.pc u).inTransit
      rw [hpc]
      exact inTransit_update t u fun _ => htransit)
  pc := by
    show ∀ u, (Function.update s₁.pc t p u).Ok
    rw [hpc]; exact pcOk_update h.pc t hok
  args := by
    show ∀ u args, (Function.update s₁.pc t p u).takeArgs = some args → _
    rw [hpc]; exact takeArgs_update t hargs
  regions := by
    refine ⟨∅, .none hregions fun u ⟨v, hv⟩ => ⟨v, ?_⟩, htrees.congr rfl rfl rfl⟩
    show u ∈ s₁.owned v
    rw [howned]; exact hv

/-- `TakeRegion` gets units of a tree. -/
theorem effect_taken {s : State τ} (s₁ : State τ) (h : Conserved layout s) (a : Action τ) (t : τ)
    {args : TakeArgs} {idx num : Nat} {giver : Holder τ}
    (hgiver : giver = .dirty ∨ giver = .released)
    (hpc : s₁.pc = s.pc) (howned : s₁.owned = s.owned) (hregions : s₁.regions = s.regions)
    (hgiven : holding s₁ giver = holding s giver \ Set.Ico idx (idx + num))
    (hother : ∀ k, k ≠ giver → holding s₁ k = holding s k)
    (hserves : a.Serves s args) (hnottransit : (s.pc t).inTransit = ∅) (hnum : 0 < num)
    (hsub : Set.Ico idx (idx + num) ⊆ holding s giver)
    (htrees : TreesOk layout s s₁ (Set.Ico idx (idx + num)))
    (hrec : args.uclass % 16 ≠ SUBORDINATE_UNIT → RegionRecords layout s₁.table idx num) :
    Effect layout a s (s₁.taken t idx num (layout.unitPtr idx)) := by
  have hgrow : callerUnits s ⊆ callerUnits (s₁.taken t idx num (layout.unitPtr idx)) := by
    rintro u ⟨v, hv⟩
    refine ⟨v, ?_⟩
    show u ∈ Function.update s₁.owned t (s₁.owned t ∪ Set.Ico idx (idx + num)) v
    rw [howned]
    by_cases hvt : v = t
    · subst hvt
      rw [Function.update_self]; exact Or.inl hv
    · rw [Function.update_of_ne hvt]; exact hv
  -- the units go from the tree to the thread; nobody else is touched
  refine ⟨⟨giver, .owner t, Set.Ico idx (idx + num), ?_, hsub, ?_, ?_, ?_⟩, ?_, ?_, ?_⟩
  · rcases hgiver with rfl | rfl <;> simp
  · rw [← hgiven]
    rcases hgiver with rfl | rfl <;> rfl
  · show Function.update s₁.owned t (s₁.owned t ∪ Set.Ico idx (idx + num)) t = _
    rw [Function.update_self, howned]
    rfl
  · intro k hkg hkt
    rw [← hother k hkg]
    cases k with
    | dirty => rfl
    | released => rfl
    | owner u => exact Function.update_of_ne (fun hu => hkt (by rw [hu])) _ _
    | transit u =>
      refine inTransit_update t u fun _ => ?_
      rw [hpc, hnottransit]; rfl
  · show ∀ u, (Function.update s₁.pc t _ u).Ok
    rw [hpc]; exact pcOk_update h.pc t trivial
  · show ∀ u args, (Function.update s₁.pc t _ u).takeArgs = some args → _
    rw [hpc]; exact takeArgs_update t (by simp [Pc.takeArgs])
  · refine ⟨_, .taken ⟨layout.unitPtr idx, idx, num⟩ args ?_ rfl hgrow hnum ?_ ?_ hserves hrec,
      htrees.congr rfl rfl rfl⟩
    · show insert _ s₁.regions = _
      rw [hregions]
    · rcases hgiver with rfl | rfl
      · exact hsub.trans Set.subset_union_left
      · exact hsub.trans Set.subset_union_right
    · intro u hu
      refine ⟨t, ?_⟩
      show u ∈ Function.update s₁.owned t (s₁.owned t ∪ Set.Ico idx (idx + num)) t
      rw [Function.update_self]; exact Or.inr hu

/-- A caller gives units to a tree. -/
theorem effect_given {s : State τ} (s₁ : State τ) (h : Conserved layout s) {a : Action τ} {t : τ}
    {idx num : Nat} {taker : Holder τ} (htaker : taker = .dirty ∨ taker = .released)
    (ha : a = .addGarbageUnits t idx num ∨ a = .addReleaseUnits t idx num)
    (hpc : s₁.pc = s.pc) (howned : s₁.owned = s.owned) (hregions : s₁.regions = s.regions)
    (htaken : holding s₁ taker = holding s taker ∪ Set.Ico idx (idx + num))
    (hother : ∀ k, k ≠ taker → holding s₁ k = holding s k)
    (hidle : (s.pc t).inTransit = ∅) (hsub : Set.Ico idx (idx + num) ⊆ s.owned t)
    (htrees : TreesOk layout s s₁ ∅) :
    Effect layout a s (s₁.given t idx num) := by
  refine ⟨⟨.owner t, taker, Set.Ico idx (idx + num), ?_, hsub, ?_, ?_, ?_⟩, ?_, ?_, ?_⟩
  · rcases htaker with rfl | rfl <;> simp
  · show Function.update s₁.owned t (s₁.owned t \ Set.Ico idx (idx + num)) t = _
    rw [Function.update_self, howned]
    rfl
  · rw [← htaken]
    rcases htaker with rfl | rfl <;> rfl
  · intro k hkt hkg
    rw [← hother k hkg]
    cases k with
    | dirty => rfl
    | released => rfl
    | owner u => exact Function.update_of_ne (fun hu => hkt (by rw [hu])) _ _
    | transit u =>
      refine inTransit_update t u fun _ => ?_
      rw [hpc, hidle]; rfl
  · show ∀ u, (Function.update s₁.pc t _ u).Ok
    rw [hpc]; exact pcOk_update h.pc t trivial
  · show ∀ u args, (Function.update s₁.pc t _ u).takeArgs = some args → _
    rw [hpc]; exact takeArgs_update t (by simp [Pc.takeArgs])
  · refine ⟨∅, .given t idx num ha ?_ ?_, htrees.congr rfl rfl rfl⟩
    · show s₁.regions \ _ = _
      rw [hregions]
    · rintro u ⟨⟨v, hv⟩, hu⟩
      refine ⟨v, ?_⟩
      show u ∈ Function.update s₁.owned t (s₁.owned t \ Set.Ico idx (idx + num)) v
      rw [howned]
      by_cases hvt : v = t
      · subst hvt
        rw [Function.update_self]; exact ⟨hv, hu⟩
      · rw [Function.update_of_ne hvt]; exact hv

/-! ## Every action has its effect -/

/-- The first half of the loop body of `TakeRegion`. -/
theorem exec_tryLockDirty {s : State τ} (h : Conserved layout s) (t : τ) (acquired : Bool)
    (hfits : ∀ args, (Action.tryLockDirty t acquired).Serves s args → args.num < 2 ^ 32) :
    ∃ s', exec layout s (.tryLockDirty t acquired) = .ok s' ∧
      Effect layout (.tryLockDirty t acquired) s s' := by
  cases hpc : s.pc t with
  | takeDirty args d r =>
    have htransit : (s.pc t).inTransit = ∅ := by rw [hpc]; rfl
    have hargs : (s.pc t).takeArgs = some args := by rw [hpc]; rfl
    simp only [exec, hpc]
    -- with the lock the tree serves the request or has no block; without it the next tree is tried
    by_cases hlock : (d && acquired) = true
    · simp only [hlock, if_true]
      obtain ⟨rfl, rfl⟩ := Bool.and_eq_true_iff.mp hlock
      obtain ⟨tree', table', ⟨hres, hunits, hsec⟩ |
        ⟨idx, hres, hblock, hlt, hnum, hsub, hunits, hsec, hrec⟩⟩ :=
        takeFromDirty_spec h.dirty h.dirty_free s.table fun hblock =>
          hfits args ⟨rfl, ⟨r, hpc⟩, hblock⟩
      · rw [hres]
        refine ⟨_, rfl, ?_⟩
        refine effect_goto { s with dirty := tree', table := table' } h _ t rfl rfl rfl
          hunits rfl (treesOk_dirty h hsec rfl ?_) htransit.symm trivial
          fun a ha => Or.inl (hargs.trans ha)
        rw [Set.union_empty]
        exact h.disjoint .released .dirty (by simp) hunits.subset
      · rw [hres, Nat.mod_eq_of_lt hlt]
        refine ⟨_, rfl, ?_⟩
        refine effect_taken { s with dirty := tree', table := table' } h _ t
          (Or.inl rfl) rfl rfl rfl hunits ?_ ⟨rfl, ⟨r, hpc⟩, hblock⟩ htransit hnum hsub
          (treesOk_dirty h hsec rfl ?_) hrec
        · intro k hk
          cases k <;> first | rfl | exact absurd rfl hk
        · refine h.disjoint .released .dirty (by simp) (Set.union_subset ?_ hsub)
          show tree'.freeUnits ⊆ _
          rw [hunits]; exact Set.sdiff_subset
    · simp only [hlock]
      exact ⟨_, rfl, effect_goto s h _ t rfl rfl rfl rfl rfl (treesOk_refl h rfl rfl rfl)
        htransit.symm trivial fun a ha => Or.inl (hargs.trans ha)⟩
  | _ =>
    simp only [exec, hpc]
    exact ⟨_, rfl, effect_stay h _⟩

/-- The second half of the loop body of `TakeRegion`. -/
theorem exec_tryLockReleased {s : State τ} (h : Conserved layout s) (t : τ) (acquired : Bool)
    (hfits : ∀ args, (Action.tryLockReleased t acquired).Serves s args → args.num < 2 ^ 32) :
    ∃ s', exec layout s (.tryLockReleased t acquired) = .ok s' ∧
      Effect layout (.tryLockReleased t acquired) s s' := by
  cases hpc : s.pc t with
  | takeReleased args d r =>
    have htransit : (s.pc t).inTransit = ∅ := by rw [hpc]; rfl
    have hargs : (s.pc t).takeArgs = some args := by rw [hpc]; rfl
    -- another round carries the same request, a null result carries nothing
    have hagain : ∀ d r, (takeAgain args d r).inTransit = (s.pc t).inTransit ∧
        (takeAgain args d r).Ok ∧ ∀ a, (takeAgain args d r).takeArgs = some a →
          (s.pc t).takeArgs = some a ∨
            (Action.tryLockReleased t acquired : Action τ) = .takeRegion t a := by
      intro d r
      rw [htransit, hargs]
      unfold takeAgain
      by_cases hdr : (d || r) = true
      · rw [if_pos hdr]
        exact ⟨rfl, trivial, fun a ha => Or.inl ha⟩
      · rw [if_neg hdr]
        exact ⟨rfl, trivial, by simp [Pc.takeArgs]⟩
    simp only [exec, hpc]
    by_cases hlock : (r && acquired) = true
    · simp only [hlock, if_true]
      obtain ⟨rfl, rfl⟩ := Bool.and_eq_true_iff.mp hlock
      obtain ⟨tree', table', ⟨hres, hunits, hsec⟩ |
        ⟨idx, hres, hblock, hlt, hnum, hsub, hunits, hsec, hrec⟩⟩ :=
        takeFromReleased_spec h.released h.released_free s.table fun hblock =>
          hfits args ⟨rfl, ⟨d, hpc⟩, hblock⟩
      · rw [hres]
        refine ⟨_, rfl, ?_⟩
        refine effect_goto { s with released := tree', table := table' } h _ t rfl rfl rfl
          rfl hunits (treesOk_released h hsec rfl ?_) (hagain _ _).1 (hagain _ _).2.1
          (hagain _ _).2.2
        rw [Set.union_empty]
        exact h.disjoint .dirty .released (by simp) hunits.subset
      · rw [hres, Nat.mod_eq_of_lt hlt]
        refine ⟨_, rfl, ?_⟩
        refine effect_taken { s with released := tree', table := table' } h _ t
          (Or.inr rfl) rfl rfl rfl hunits ?_ ⟨rfl, ⟨d, hpc⟩, hblock⟩ htransit hnum hsub
          (treesOk_released h hsec rfl ?_) hrec
        · intro k hk
          cases k <;> first | rfl | exact absurd rfl hk
        · refine h.disjoint .dirty .released (by simp) (Set.union_subset ?_ hsub)
          show tree'.freeUnits ⊆ _
          rw [hunits]; exact Set.sdiff_subset
    · simp only [hlock]
      exact ⟨_, rfl, effect_goto s h _ t rfl rfl rfl rfl rfl (treesOk_refl h rfl rfl rfl)
        (hagain _ _).1 (hagain _ _).2.1 (hagain _ _).2.2⟩
  | _ =>
    simp only [exec, hpc]
    exact ⟨_, rfl, effect_stay h _⟩

/-- `AddGarbageUnits` on units the caller has: the insertion cannot fail. -/
theorem exec_addGarbageUnits {s : State τ} (h : Conserved layout s) (t : τ) {idx num : Nat}
    (hnum : 0 < num) (hown : Set.Ico idx (idx + num) ⊆ s.owned t) :
    ∃ s', exec layout s (.addGarbageUnits t idx num) = .ok s' ∧
      Effect layout (.addGarbageUnits t idx num) s s' := by
  cases hpc : s.pc t with
  | idle result =>
    have htransit : (s.pc t).inTransit = ∅ := by rw [hpc]; rfl
    obtain ⟨tree', table', hres, hunits, hsec⟩ := insertOrFatal_spec h.dirty h.dirty_free s.table
      hnum (hown.trans (h.units.subset (.owner t)))
      (h.disjoint .dirty (.owner t) (by simp) hown)
    simp only [exec, hpc, hres]
    refine ⟨_, rfl, ?_⟩
    refine effect_given { s with dirty := tree', table := table' } h (Or.inl rfl)
      (Or.inl rfl) rfl rfl rfl hunits ?_ htransit hown (treesOk_dirty h hsec rfl ?_)
    · intro k hk
      cases k <;> first | rfl | exact absurd rfl hk
    · show Disjoint _ (tree'.freeUnits ∪ ∅)
      rw [Set.union_empty, hunits]
      exact Disjoint.union_right (h.disjoint .released .dirty (by simp) subset_rfl)
        (h.disjoint .released (.owner t) (by simp) hown)
  | _ =>
    simp only [exec, hpc]
    exact ⟨_, rfl, effect_stay h _⟩

/-- `AddReleaseUnits` on units the caller has. -/
theorem exec_addReleaseUnits {s : State τ} (h : Conserved layout s) (t : τ) {idx num : Nat}
    (hnum : 0 < num) (hown : Set.Ico idx (idx + num) ⊆ s.owned t) :
    ∃ s', exec layout s (.addReleaseUnits t idx num) = .ok s' ∧
      Effect layout (.addReleaseUnits t idx num) s s' := by
  cases hpc : s.pc t with
  | idle result =>
    have htransit : (s.pc t).inTransit = ∅ := by rw [hpc]; rfl
    obtain ⟨tree', table', hres, hunits, hsec⟩ := insertOrFatal_spec h.released h.released_free
      s.table hnum (hown.trans (h.units.subset (.owner t)))
      (h.disjoint .released (.owner t) (by simp) hown)
    simp only [exec, hpc, hres]
    refine ⟨_, rfl, ?_⟩
    refine effect_given { s with released := tree', table := table' } h (Or.inr rfl)
      (Or.inr rfl) rfl rfl rfl hunits ?_ htransit hown (treesOk_released h hsec rfl ?_)
    · intro k hk
      cases k <;> first | rfl | exact absurd rfl hk
    · show Disjoint _ (tree'.freeUnits ∪ ∅)
      rw [Set.union_empty, hunits]
      exact Disjoint.union_right (h.disjoint .dirty .released (by simp) subset_rfl)
        (h.disjoint .dirty (.owner t) (by simp) hown)
  | _ =>
    simp only [exec, hpc]
    exact ⟨_, rfl, effect_stay h _⟩

/-- The loop test of `ReleaseGarbageRegions` and the release of the root of the dirty tree: its
    block goes to the thread. -/
theorem exec_releaseRoot {s : State τ} (h : Conserved layout s) (t : τ) :
    ∃ s', exec layout s (.releaseRoot t) = .ok s' ∧ Effect layout (.releaseRoot t) s s' := by
  cases hpc : s.pc t with
  | releaseTest target released bytes =>
    have htransit : (s.pc t).inTransit = ∅ := by rw [hpc]; rfl
    have hquiet : ∀ (s₁ : State τ) {p : Pc}, s₁.pc = s.pc → s₁.owned = s.owned →
        s₁.regions = s.regions → s₁.dirty.freeUnits = s.dirty.freeUnits →
        s₁.released.freeUnits = s.released.freeUnits → TreesOk layout s s₁ ∅ →
        p.inTransit = ∅ → p.Ok → p.takeArgs = none →
        Effect layout (.releaseRoot t) s (s₁.goto t p) :=
      fun s₁ _ h1 h2 h3 h4 h5 h6 h7 h8 h9 => effect_goto s₁ h _ t h1 h2 h3 h4 h5 h6
        (h7.trans htransit.symm) h8 fun a ha => by rw [h9] at ha; cases ha
    simp only [exec, hpc]
    -- the loop goes on, with the root in transit, or it ends
    by_cases htest : target < bytes
    · simp only [htest, if_true]
      obtain ⟨tree', table', ⟨hres, hunits, hsec⟩ | ⟨idx, num, hres, hnum, hsub, hunits, hsec⟩⟩ :=
        releaseRoot_spec h.dirty h.dirty_free s.table
      · rw [hres]
        refine ⟨_, rfl, hquiet { s with dirty := tree', table := table' } rfl rfl rfl
          hunits rfl (treesOk_dirty h hsec rfl ?_) rfl trivial rfl⟩
        rw [Set.union_empty]
        exact h.disjoint .released .dirty (by simp) hunits.subset
      · rw [hres]
        refine ⟨_, rfl, ⟨⟨.dirty, .transit t, Set.Ico idx (idx + num), by simp, hsub, hunits, ?_,
          ?_⟩, ?_, ?_, ?_⟩⟩
        · show (Function.update s.pc t _ t).inTransit = (s.pc t).inTransit ∪ _
          rw [Function.update_self, htransit, Set.empty_union]
          rfl
        · intro k hkd hkt
          cases k with
          | dirty => exact absurd rfl hkd
          | released => rfl
          | owner u => rfl
          | transit u => exact inTransit_update t u fun hu => absurd (by rw [hu]) hkt
        · exact pcOk_update h.pc t hnum
        · exact takeArgs_update t (by simp [Pc.takeArgs])
        · refine ⟨∅, .none rfl fun u hu => hu, treesOk_dirty h hsec rfl ?_⟩
          show Disjoint _ (tree'.freeUnits ∪ ∅)
          rw [Set.union_empty, hunits]
          exact h.disjoint .released .dirty (by simp) Set.sdiff_subset
    · simp only [htest, if_false]
      exact ⟨_, rfl, hquiet s rfl rfl rfl rfl rfl (treesOk_refl h rfl rfl rfl) rfl trivial rfl⟩
  | _ =>
    simp only [exec, hpc]
    exact ⟨_, rfl, effect_stay h _⟩

/-- The block in hand goes to the released tree: the insertion cannot fail. -/
theorem exec_mergeReleased {s : State τ} (h : Conserved layout s) (t : τ) :
    ∃ s', exec layout s (.mergeReleased t) = .ok s' ∧ Effect layout (.mergeReleased t) s s' := by
  cases hpc : s.pc t with
  | releaseMerge target bytes idx num =>
    have hnum := h.pc t
    rw [hpc] at hnum
    have htransit : (s.pc t).inTransit = Set.Ico idx (idx + num) := by rw [hpc]; rfl
    have hhold : Set.Ico idx (idx + num) ⊆ holding s (.transit t) := htransit.superset
    obtain ⟨tree', table', hres, hunits, hsec⟩ := insertOrFatal_spec h.released h.released_free
      s.table hnum (hhold.trans (h.units.subset _)) (h.disjoint .released _ (by simp) hhold)
    simp only [exec, hpc, hres]
    refine ⟨_, rfl, ⟨⟨.transit t, .released, Set.Ico idx (idx + num), by simp, hhold, ?_, hunits,
      ?_⟩, ?_, ?_, ?_⟩⟩
    · show (Function.update s.pc t _ t).inTransit = (s.pc t).inTransit \ _
      rw [Function.update_self, htransit, Set.sdiff_self]
      rfl
    · intro k hkt hkr
      cases k with
      | dirty => rfl
      | released => exact absurd rfl hkr
      | owner u => rfl
      | transit u => exact inTransit_update t u fun hu => absurd (by rw [hu]) hkt
    · exact pcOk_update h.pc t trivial
    · exact takeArgs_update t (by simp [Pc.takeArgs])
    · refine ⟨∅, .none rfl fun u hu => hu, treesOk_released h hsec rfl ?_⟩
      show Disjoint _ (tree'.freeUnits ∪ ∅)
      rw [Set.union_empty, hunits]
      exact Disjoint.union_right (h.disjoint .dirty .released (by simp) subset_rfl)
        (h.disjoint .dirty _ (by simp) hhold)
  | _ =>
    simp only [exec, hpc]
    exact ⟨_, rfl, effect_stay h _⟩

/-- Callers pass units among themselves. -/
theorem exec_handOver {s : State τ} (h : Conserved layout s) (t u : τ) {idx num : Nat}
    (hown : Set.Ico idx (idx + num) ⊆ s.owned t) :
    ∃ s', exec layout s (.handOver t u idx num) = .ok s' ∧
      Effect layout (.handOver t u idx num) s s' := by
  obtain ⟨s', hs'⟩ : ∃ s', exec layout s (.handOver t u idx num) = .ok s' := ⟨_, rfl⟩
  have hs'' := hs'
  simp only [exec, Except.ok.injEq] at hs''
  subst hs''
  refine ⟨_, hs', ?_⟩
  clear hs'
  by_cases htu : u = t
  · -- to itself: nothing changes
    subst htu
    rw [Function.update_self, Function.update_idem, Set.sdiff_union_of_subset hown,
      Function.update_eq_self]
    exact effect_stay h _
  · rw [Function.update_of_ne htu]
    have hat : ∀ v, Function.update (Function.update s.owned t
        (s.owned t \ Set.Ico idx (idx + num))) u (s.owned u ∪ Set.Ico idx (idx + num)) v =
        if v = u then s.owned u ∪ Set.Ico idx (idx + num)
        else if v = t then s.owned t \ Set.Ico idx (idx + num) else s.owned v := by
      intro v
      simp only [Function.update_apply]
    refine ⟨⟨.owner t, .owner u, Set.Ico idx (idx + num), ?_, hown, ?_, ?_, ?_⟩, h.pc,
      fun _ _ hargs => Or.inl hargs, ∅, .none rfl ?_, treesOk_refl h rfl rfl rfl⟩
    · simpa using fun htu' => htu htu'.symm
    · exact (hat t).trans (by rw [if_neg (fun ht => htu ht.symm), if_pos rfl]; rfl)
    · exact (hat u).trans (by rw [if_pos rfl]; rfl)
    · intro k hkt hku
      cases k with
      | owner v =>
        exact (hat v).trans (by
          rw [if_neg (fun hv => hku (by rw [hv])), if_neg (fun hv => hkt (by rw [hv]))]
          rfl)
      | _ => rfl
    · rintro x ⟨v, hv⟩
      have hex : ∃ v, x ∈ (if v = u then s.owned u ∪ Set.Ico idx (idx + num)
          else if v = t then s.owned t \ Set.Ico idx (idx + num) else s.owned v) := by
        by_cases hvt : v = t ∧ x ∈ Set.Ico idx (idx + num)
        · exact ⟨u, by rw [if_pos rfl]; exact Or.inr hvt.2⟩
        · refine ⟨v, ?_⟩
          split_ifs with hvu hvt'
          · exact Or.inl (hvu ▸ hv)
          · exact ⟨hvt' ▸ hv, fun hx => hvt ⟨hvt', hx⟩⟩
          · exact hv
      obtain ⟨v, hv⟩ := hex
      exact ⟨v, (hat v).superset hv⟩

/-- **Every action, in every state the invariant allows, goes through and has its effect.**  One
    case for each action, from the spec of its section; that there is no fault is a part of it. -/
theorem exec_effect {s : State τ} (h : Conserved layout s) {a : Action τ} (howned : a.Owned s)
    (hfits : ∀ args, a.Serves s args → args.num < 2 ^ 32) :
    ∃ s', exec layout s a = .ok s' ∧ Effect layout a s s' := by
  -- one lemma a section; what only moves the thread is done here
  cases a with
  | takeRegion t args =>
    cases hpc : s.pc t with
    | idle result =>
      simp only [exec, hpc]
      refine ⟨_, rfl, effect_goto s h _ t rfl rfl rfl rfl rfl (treesOk_refl h rfl rfl rfl)
        (by rw [hpc]; rfl) trivial fun args' hargs => Or.inr ?_⟩
      simp only [Pc.takeArgs, Option.some.injEq] at hargs
      rw [hargs]
    | _ =>
      simp only [exec, hpc]
      exact ⟨_, rfl, effect_stay h _⟩
  | tryLockDirty t acquired => exact exec_tryLockDirty h t acquired hfits
  | tryLockReleased t acquired => exact exec_tryLockReleased h t acquired hfits
  | addGarbageUnits t idx num => exact exec_addGarbageUnits h t howned.1 howned.2
  | addReleaseUnits t idx num => exact exec_addReleaseUnits h t howned.1 howned.2
  | releaseGarbageRegions t target =>
    cases hpc : s.pc t with
    | idle result =>
      have hmove : ∀ p : Pc, p.inTransit = ∅ → p.Ok → p.takeArgs = none →
          Effect layout (.releaseGarbageRegions t target) s (s.goto t p) :=
        fun p h1 h2 h3 => effect_goto s h _ t rfl rfl rfl rfl rfl (treesOk_refl h rfl rfl rfl)
          (by rw [hpc, h1]; rfl) h2 fun a ha => by rw [h3] at ha; cases ha
      simp only [exec, hpc]
      by_cases hbytes : dirtyBytes s.dirty ≤ target
      · rw [if_pos hbytes]
        exact ⟨_, rfl, hmove _ rfl trivial rfl⟩
      · rw [if_neg hbytes]
        exact ⟨_, rfl, hmove _ rfl trivial rfl⟩
    | _ =>
      simp only [exec, hpc]
      exact ⟨_, rfl, effect_stay h _⟩
  | releaseRoot t => exact exec_releaseRoot h t
  | mergeReleased t => exact exec_mergeReleased h t
  | readDirty t =>
    cases hpc : s.pc t with
    | releaseRead target bytes =>
      simp only [exec, hpc]
      exact ⟨_, rfl, effect_goto s h _ t rfl rfl rfl rfl rfl (treesOk_refl h rfl rfl rfl)
        (by rw [hpc]; rfl) trivial (by simp [Pc.takeArgs])⟩
    | _ =>
      simp only [exec, hpc]
      exact ⟨_, rfl, effect_stay h _⟩
  | handOver t u idx num => exact exec_handOver h t u howned

/-! ## Every run -/

/-- The runs in which callers give away only what they have and ask for 32-bit counts. -/
def lawful (layout : HeapLayout) : System (State τ) (Action τ) :=
  (machine layout).guarded fun s a => a.Owned s ∧ a.CountFits

/-- The requests under way are 32-bit counts. -/
def RequestsFit (s : State τ) : Prop :=
  ∀ t args, (s.pc t).takeArgs = some args → args.num < 2 ^ 32

omit [DecidableEq τ] in
/-- The request that a section serves fits into 32 bits. -/
theorem RequestsFit.serves {s : State τ} (h : RequestsFit s) {a : Action τ} {args : TakeArgs}
    (hserves : a.Serves s args) : args.num < 2 ^ 32 := by
  cases a with
  | tryLockDirty t acquired =>
    obtain ⟨-, ⟨r, hpc⟩, -⟩ := hserves
    exact h t args (by rw [hpc]; rfl)
  | tryLockReleased t acquired =>
    obtain ⟨-, ⟨d, hpc⟩, -⟩ := hserves
    exact h t args (by rw [hpc]; rfl)
  | _ => exact hserves.elim

/-- In every run of lawful sections the units of the heap are conserved. -/
theorem conserved_invariant :
    (lawful layout : System (State τ) _).Invariant fun s => Conserved layout s ∧ RequestsFit s where
  init s hs := ⟨hs.conserved, fun t args hargs => by
    rw [hs.idle] at hargs
    cases hargs⟩
  step s a s' h hstep := by
    obtain ⟨hinv, hreq⟩ := h
    obtain ⟨⟨howned, hfits⟩, hexec⟩ := hstep
    obtain ⟨s'', hs'', he⟩ := exec_effect hinv howned fun args => hreq.serves
    obtain rfl : s'' = s' := Except.ok.inj (hs''.symm.trans hexec)
    refine ⟨he.conserved hinv, fun t args hargs => ?_⟩
    rcases he.args t args hargs with hold | rfl
    · exact hreq t args hold
    · exact hfits

/-- **Units are conserved.**  In every state a lawful run reaches, every unit of the heap has
    exactly one holder, no holder has anything else, and no lawful action faults: no `RtFatal`. -/
theorem reachable_conserves {s : State τ} (h : (lawful layout).Reachable s) :
    (∀ u < layout.totalUnitCount, ∃! k, u ∈ holding s k) ∧
    (∀ k, holding s k ⊆ Set.Iio layout.totalUnitCount) ∧
    ∀ a : Action τ, a.Owned s → a.CountFits → ∃ s', exec layout s a = .ok s' := by
  obtain ⟨hinv, hreq⟩ := conserved_invariant.reachable h
  refine ⟨fun u hu => hinv.units.existsUnique hu, hinv.units.subset, fun a howned hfits => ?_⟩
  obtain ⟨s', hs', -⟩ := exec_effect hinv howned fun args => hreq.serves
  exact ⟨s', hs'⟩

/-! ## A small heap -/

/-- A heap of four units. -/
def smallHeap : HeapLayout where
  heapStartAddress := 2 ^ 40
  totalUnitCount := 4
  table_fits := by decide
  heap_fits := by decide
  idx_fits := by decide

/-- Two callers, one of which has the whole small heap. -/
def smallStart : State Bool where
  dirty := .init 0
  released := .init 0
  table := fun _ => ⟨0, 0, 0, 0, 0, 0, 0, 0, 0⟩
  pc := fun _ => .idle .unit
  owned := fun t => if t then ∅ else Set.Iio 4
  regions := ∅

/-- The small heap is one that a run can begin with. -/
theorem smallStart_initial : smallStart.Initial smallHeap where
  dirty := ⟨0, rfl⟩
  released := ⟨0, rfl⟩
  idle := fun _ => rfl
  owned := by
    refine ⟨fun u => ⟨fun hu => ⟨false, hu⟩, ?_⟩, ?_⟩
    · rintro ⟨t, ht⟩
      cases t with
      | false => exact ht
      | true => exact absurd ht (Set.notMem_empty u)
    · intro i j u hi hj
      cases i <;> cases j <;> first
        | rfl
        | exact absurd hi (Set.notMem_empty u)
        | exact absurd hj (Set.notMem_empty u)
  regions := rfl

/-- The whole heap given to the dirty tree, and two units taken back by the other caller. -/
theorem reachable_conserves_taken : ∃ s : State Bool, (lawful smallHeap).Reachable s ∧
    s.dirty.root = .node ⟨0, 2, 2⟩ .nil .nil ∧ s.pc true = .idle (.region (some (2 ^ 40 - 88))) ∧
    (∀ u < 4, ∃! k, u ∈ holding s k) ∧
    (∀ k, holding s k ⊆ Set.Iio 4) ∧
    ∀ a : Action Bool, a.Owned s → a.CountFits → ∃ s', exec smallHeap s a = .ok s' := by
  have hgive : ∃ s, (lawful smallHeap).Reachable s ∧ s.dirty.root = .node ⟨0, 2, 2⟩ .nil .nil ∧
      s.pc true = .idle (.region (some (2 ^ 40 - 88))) :=
    ⟨_, .step (e := .tryLockDirty true true)
      (.step (e := .takeRegion true ⟨2, SMALL_SIZED_UNITS, false⟩)
        (.step (e := .addGarbageUnits false 0 4) (.init smallStart_initial)
          ⟨⟨⟨by decide, fun u hu => hu.2⟩, trivial⟩, rfl⟩)
        ⟨⟨trivial, show 2 < 2 ^ 32 by decide⟩, rfl⟩)
      ⟨⟨trivial, trivial⟩, rfl⟩, rfl, rfl⟩
  obtain ⟨s, hreach, hroot, hpc⟩ := hgive
  exact ⟨s, hreach, hroot, hpc, reachable_conserves hreach⟩

end FreeRegionManager

end CangjieRuntime.Heap
