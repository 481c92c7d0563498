/-
  What the initialisation and lookup functions of the unit table do.

  `unitPtr` and `unitStart` are the two addresses of a unit, its record's and its first byte's,
  without the word arithmetic; under a `HeapLayout` every function of the source computes them
  exactly.  On top of that each initialisation has one specification: what it leaves in the
  records it writes, and that it writes no other record.
-/
import CangjieRuntime.Heap.RegionInfo
import CangjieRuntime.Heap.TreeInvariant

set_option linter.unusedVariables false

namespace CangjieRuntime.Heap

open SlotTree

/-! ## The addresses of a unit -/

namespace HeapLayout

/-- The address of a unit's record. -/
def unitPtr (layout : HeapLayout) (u : Nat) : Nat :=
  layout.heapStartAddress - (u + 1) * UNIT_INFO_SIZE

/-- The address of a unit's first byte. -/
def unitStart (layout : HeapLayout) (u : Nat) : Nat := layout.heapStartAddress + u * UNIT_SIZE

variable {layout : HeapLayout}

/-- The heap begins at an address of 64 bits. -/
theorem heapStartAddress_lt (layout : HeapLayout) : layout.heapStartAddress < 2 ^ 64 := by
  have := layout.heap_fits; omega

/-- The records of the units stand before the heap. -/
theorem record_fits {u : Nat} (hu : u < layout.totalUnitCount) :
    (u + 1) * UNIT_INFO_SIZE ≤ layout.heapStartAddress := by
  exact Nat.le_trans (Nat.mul_le_mul_right _ hu) layout.table_fits

/-- The units of the heap do not reach the end of the address space. -/
theorem unit_fits {u : Nat} (hu : u ≤ layout.totalUnitCount) :
    layout.heapStartAddress + u * UNIT_SIZE < 2 ^ 64 := by
  have := Nat.mul_le_mul_right UNIT_SIZE hu
  exact Nat.lt_of_le_of_lt (Nat.add_le_add_left this _) layout.heap_fits

/-- Units follow each other at the distance of their size. -/
theorem unitStart_add (u n : Nat) :
    layout.unitStart (u + n) = layout.unitStart u + n * UNIT_SIZE := by
  unfold unitStart
  rw [Nat.add_mul, Nat.add_assoc]

/-- Different units have different records. -/
theorem unitPtr_inj {u v : Nat} (hu : u < layout.totalUnitCount) (hv : v < layout.totalUnitCount)
    (h : layout.unitPtr u = layout.unitPtr v) : u = v := by
  have hu' := record_fits hu
  have hv' := record_fits hv
  simp only [unitPtr, UNIT_INFO_SIZE] at *
  omega

end HeapLayout

namespace RegionInfo

open HeapLayout

variable {layout : HeapLayout}

/-- The record of a unit of the heap is found without an abort. -/
theorem getUnitInfo_eq {u : Nat} (hu : u < layout.totalUnitCount) :
    getUnitInfo layout u = .ok (layout.unitPtr u) := by
  have hfit := record_fits hu
  have hstart := layout.heapStartAddress_lt
  unfold getUnitInfo unitPtr
  rw [if_neg (by omega), Words.add_eq (by simp only [UNIT_INFO_SIZE] at hfit; omega),
    Words.mul_eq (by omega), Words.sub_eq hfit hstart]

/-- So is its address. -/
theorem getUnitAddress_eq {u : Nat} (hu : u < layout.totalUnitCount) :
    getUnitAddress layout u = .ok (layout.unitStart u) := by
  have hfit := unit_fits (Nat.le_of_lt hu)
  unfold getUnitAddress unitStart
  rw [if_neg (by omega), Words.mul_eq (by omega), Words.add_eq hfit]

/-- The record of the unit an address lies in. -/
theorem getUnitInfoAt_eq {u addr : Nat} (hu : u < layout.totalUnitCount)
    (hlow : layout.unitStart u ≤ addr) (hhigh : addr < layout.unitStart u + UNIT_SIZE) :
    getUnitInfoAt layout addr = .ok (layout.unitPtr u) := by
  have hfit := layout.heap_fits
  have hidx : getUnitIdxAt layout addr = .ok u := by
    unfold getUnitIdxAt
    rw [Words.mul_eq (by omega), Words.add_eq hfit]
    simp only [unitStart, UNIT_SIZE] at *
    rw [if_pos (by omega), Words.sub_eq (by omega) (by omega)]
    congr 1
    omega
  unfold getUnitInfoAt
  rw [hidx]
  exact getUnitInfo_eq hu

/-- The start of a region is computed back from the pointer to its record. -/
theorem getRegionStart_eq {u : Nat} (hu : u < layout.totalUnitCount) :
    getRegionStart layout (layout.unitPtr u) = .ok (layout.unitStart u) := by
  have hfit := record_fits hu
  have hheap := unit_fits (Nat.le_of_lt hu)
  have hstart := layout.heapStartAddress_lt
  have hidx : Words.sub 64 ((layout.heapStartAddress - layout.unitPtr u) / UNIT_INFO_SIZE) 1 =
      u := by
    have hdist : layout.heapStartAddress - layout.unitPtr u = (u + 1) * UNIT_INFO_SIZE := by
      unfold unitPtr; omega
    rw [hdist, Nat.mul_div_cancel _ (by simp), Words.sub_eq (by omega) (by
      simp only [UNIT_INFO_SIZE] at hfit; omega)]
    omega
  unfold getRegionStart
  rw [if_neg (by unfold unitPtr; simp only [UNIT_INFO_SIZE] at *; omega), hidx]
  simp only [if_neg (show ¬ layout.totalUnitCount ≤ u by omega)]
  rw [Words.mul_eq (by omega), Words.add_eq (by omega)]
  unfold unitStart
  rw [Nat.add_comm]

/-- The records of a region's units, counted from its head. -/
theorem unitInfoArrayGet_eq {u n k : Nat} (hn : u + n ≤ layout.totalUnitCount) (hk : k < n) :
    unitInfoArrayGet (layout.unitPtr u) n k = .ok (layout.unitPtr (u + k)) := by
  have hlast : (u + n) * UNIT_INFO_SIZE ≤ layout.heapStartAddress := by
    have hfit := layout.table_fits
    exact Nat.le_trans (Nat.mul_le_mul_right _ hn) hfit
  have hstart := layout.heapStartAddress_lt
  simp only [UNIT_INFO_SIZE] at hlast
  have h1 : Words.sub 64 n 1 = n - 1 := Words.sub_eq (by omega) (by omega)
  have h2 : Words.mul 64 (n - 1) 88 = (n - 1) * 88 := Words.mul_eq (by omega)
  have h3 : Words.sub 64 (layout.heapStartAddress - (u + 1) * 88) ((n - 1) * 88) =
      layout.heapStartAddress - (u + n) * 88 := by
    rw [Words.sub_eq (by omega) (by omega)]; omega
  have h4 : Words.sub 64 (Words.sub 64 n k) 1 = n - k - 1 := by
    rw [Words.sub_eq (show k ≤ n by omega) (by omega), Words.sub_eq (by omega) (by omega)]
  have h5 : Words.mul 64 (n - k - 1) 88 = (n - k - 1) * 88 := Words.mul_eq (by omega)
  unfold unitInfoArrayGet unitPtr
  simp only [UNIT_INFO_SIZE]
  rw [if_neg (by omega), h1, h2, h3, h4, h5, Words.add_eq (by omega)]
  exact congrArg Except.ok (by omega)

/-! ## The role of a record -/

/-- The role has four bits, and the rest of the byte is kept. -/
theorem unitRole_setUnitRole (m : UnitMetadata) (role : UnitRole) :
    unitRole (setUnitRole m role) = role % 16 := by
  -- with the masks evaluated: the low four bits come from `role`, the others are cut off
  have hset : (setUnitRole m role).unitRoleBitField =
      ((role <<< 0 % 2 ^ 64 &&& 15) ||| (m.unitRoleBitField &&& 240)) % 2 ^ 8 := rfl
  have hlow : ∀ x : Nat, x &&& 0x0f = x % 2 ^ 4 := fun x => Nat.and_two_pow_sub_one_eq_mod x 4
  unfold unitRole
  rw [hset, Nat.shiftLeft_zero, hlow, hlow, Nat.mod_mod_of_dvd _ (by decide), Nat.or_mod_two_pow,
    Nat.and_mod_two_pow, show 240 % 2 ^ 4 = 0 from rfl, Nat.and_zero, Nat.or_zero, Nat.mod_mod,
    Nat.mod_mod_of_dvd _ (by decide)]
  rfl

@[simp] theorem unitRole_setRegionState (m : UnitMetadata) (pos bitLen value : Nat) :
    unitRole (setRegionState m pos bitLen value) = unitRole m := rfl

/-- A fresh record has the role it was made for. -/
theorem unitRole_initMetadata (m : UnitMetadata) (allocPtr nUnit : Nat) (uClass : UnitRole) :
    unitRole (initMetadata m allocPtr nUnit uClass) = uClass % 16 :=
  unitRole_setUnitRole _ uClass

/-- A fresh record ends where its units end, in wrapping arithmetic. -/
theorem regionEnd_initMetadata (m : UnitMetadata) (allocPtr nUnit : Nat) (uClass : UnitRole) :
    (initMetadata m allocPtr nUnit uClass).regionEnd =
      Words.add 64 allocPtr (Words.mul 64 nUnit UNIT_SIZE) := rfl

/-! ## What the initialisations write -/

/-- The record at unit `u` says: a free region of `n` units starts here. -/
structure FreeHead (layout : HeapLayout) (table : UnitTable) (u n : Nat) : Prop where
  role : unitRole (table (layout.unitPtr u)) = FREE_UNITS
  regionEnd : (table (layout.unitPtr u)).regionEnd = layout.unitStart (u + n)

/-- The records of the units `[u, u + n)` say: one region, with its head at `u`. -/
structure RegionRecords (layout : HeapLayout) (table : UnitTable) (u n : Nat) : Prop where
  role : unitRole (table (layout.unitPtr u)) ≠ SUBORDINATE_UNIT
  regionEnd : (table (layout.unitPtr u)).regionEnd = layout.unitStart (u + n)
  subordinate : ∀ k, 0 < k → k < n →
    unitRole (table (layout.unitPtr (u + k))) = SUBORDINATE_UNIT ∧
      (table (layout.unitPtr (u + k))).liveInfo = layout.unitPtr u

/-- No record outside the units `s` differs between the two tables. -/
def SameOutside (layout : HeapLayout) (s : Set Nat) (table table' : UnitTable) : Prop :=
  ∀ u, u < layout.totalUnitCount → u ∉ s → table' (layout.unitPtr u) = table (layout.unitPtr u)

/-- A table is the same as itself. -/
theorem SameOutside.refl (s : Set Nat) (table : UnitTable) : SameOutside layout s table table :=
  fun _ _ _ => rfl

/-- Two steps that write the records of the same units alone are one. -/
theorem SameOutside.trans {s : Set Nat} {table table' table'' : UnitTable}
    (h : SameOutside layout s table table') (h' : SameOutside layout s table' table'') :
    SameOutside layout s table table'' := fun u hu hus => (h' u hu hus).trans (h u hu hus)

/-- What is written may be described by a larger set. -/
theorem SameOutside.mono {s s' : Set Nat} {table table' : UnitTable}
    (h : SameOutside layout s table table') (hs : s ⊆ s') : SameOutside layout s' table table' :=
  fun u hu hus => h u hu fun hmem => hus (hs hmem)

/-- A write to a record of the set. -/
theorem SameOutside.update {s : Set Nat} {u : Nat} (hu : u < layout.totalUnitCount) (hus : u ∈ s)
    (table : UnitTable) (m : UnitMetadata) :
    SameOutside layout s table (Function.update table (layout.unitPtr u) m) := by
  intro v hv hvs
  refine Function.update_of_ne (fun heq => ?_) _ _
  rw [unitPtr_inj hv hu heq] at hvs
  exact hvs hus

/-- A free block depends on its first record alone. -/
theorem FreeHead.congr {table table' : UnitTable} {u n : Nat} (h : FreeHead layout table u n)
    (heq : table' (layout.unitPtr u) = table (layout.unitPtr u)) : FreeHead layout table' u n :=
  ⟨by rw [heq]; exact h.role, by rw [heq]; exact h.regionEnd⟩

/-- A region depends on the records of its units alone. -/
theorem RegionRecords.congr {table table' : UnitTable} {u n : Nat}
    (h : RegionRecords layout table u n) (hn : 0 < n)
    (heq : ∀ v ∈ Set.Ico u (u + n), table' (layout.unitPtr v) = table (layout.unitPtr v)) :
    RegionRecords layout table' u n := by
  have hhead := heq u ⟨Nat.le_refl _, by omega⟩
  refine ⟨by rw [hhead]; exact h.role, by rw [hhead]; exact h.regionEnd, fun k hk hkn => ?_⟩
  rw [heq (u + k) ⟨by omega, by omega⟩]
  exact h.subordinate k hk hkn

/-- A record is initialised with the start, the size and the role of its region; the others stay as
    they are. -/
theorem initRegionInfo_eq {u : Nat} (hu : u < layout.totalUnitCount) (table : UnitTable)
    (n : Nat) (role : UnitRole) :
    initRegionInfo layout table (layout.unitPtr u) n role = .ok (Function.update table
      (layout.unitPtr u) (initMetadata (table (layout.unitPtr u)) (layout.unitStart u) n role)) := by
  unfold initRegionInfo
  rw [getRegionStart_eq hu]
  rfl

theorem regionEnd_eq {u n : Nat} (hn : u + n ≤ layout.totalUnitCount) :
    Words.add 64 (layout.unitStart u) (Words.mul 64 n UNIT_SIZE) = layout.unitStart (u + n) := by
  have hfit := unit_fits hn
  rw [Nat.add_mul] at hfit
  unfold unitStart
  rw [Words.mul_eq (by omega), Words.add_eq (by omega), Nat.add_mul]
  omega

/-- **`InitFreeRegion`** stamps the head record and no other.  The records of the other units of the
    block stay what they were. -/
theorem initFreeRegion_spec {u n : Nat} (hn : 0 < n) (hfit : u + n ≤ layout.totalUnitCount)
    (table : UnitTable) :
    ∃ table', initFreeRegion layout table u n = .ok table' ∧ FreeHead layout table' u n ∧
      SameOutside layout {u} table table' := by
  have hu : u < layout.totalUnitCount := by omega
  unfold initFreeRegion
  rw [getUnitInfo_eq hu]
  refine ⟨_, initRegionInfo_eq hu table n FREE_UNITS, ⟨?_, ?_⟩,
    SameOutside.update hu (Set.mem_singleton u) _ _⟩
  · rw [Function.update_self, unitRole_initMetadata]
    rfl
  · rw [Function.update_self, regionEnd_initMetadata, regionEnd_eq hfit]

/-- **The recorded calls.**  Made in order they do not fault; they write the heads they name, the
    last call for a head decides its record. -/
theorem performAll_spec {before after : Set Nat} (cs : List RegionCall)
    (hbefore : before ⊆ Set.Iio layout.totalUnitCount)
    (hafter : after ⊆ Set.Iio layout.totalUnitCount) :
    ∀ table, (∀ c ∈ cs, RegionCall.Covered before after c) →
      ∃ table', performAll layout table cs = .ok table' ∧ SameOutside layout after table table' ∧
        ∀ u, u < layout.totalUnitCount →
          (∀ n, CartesianTree.lastInit cs u = some n → FreeHead layout table' u n) ∧
          (CartesianTree.lastInit cs u = none →
            table' (layout.unitPtr u) = table (layout.unitPtr u)) := by
  induction cs with
  | nil =>
    intro table _
    exact ⟨table, rfl, SameOutside.refl _ _, fun u _ => ⟨by simp [CartesianTree.lastInit],
      fun _ => rfl⟩⟩
  | cons c cs ih =>
    intro table hcs
    have hrest : ∀ c ∈ cs, RegionCall.Covered before after c := fun c hc =>
      hcs c (List.mem_cons_of_mem _ hc)
    have hc := hcs c (List.mem_cons_self ..)
    cases c with
    | releaseUnits i k =>
      -- released units keep their records
      obtain ⟨table', hres, hsame, hheads⟩ := ih table hrest
      refine ⟨table', ?_, hsame, hheads⟩
      have hi : i < layout.totalUnitCount := hbefore hc
      simp only [performAll, perform, releaseUnits, getUnitAddress_eq hi]
      exact hres
    | initFreeRegion j k =>
      -- the record at the start of the block is written; a later call may write it again
      obtain ⟨hk, hsub⟩ := hc
      have hend : j + k ≤ layout.totalUnitCount := by
        have : j + k - 1 < layout.totalUnitCount := hafter (hsub ⟨by omega, by omega⟩)
        omega
      obtain ⟨table₁, hres₁, hhead₁, hsame₁⟩ := initFreeRegion_spec hk hend table
      obtain ⟨table', hres, hsame, hheads⟩ := ih table₁ hrest
      refine ⟨table', ?_, ?_, fun u hu => ⟨fun n hn => ?_, fun hnone => ?_⟩⟩
      · simp only [performAll, perform, hres₁, bind, Except.bind]
        exact hres
      · refine SameOutside.trans (hsame₁.mono ?_) hsame
        rw [Set.singleton_subset_iff]
        exact hsub ⟨Nat.le_refl _, by omega⟩
      · unfold CartesianTree.lastInit at hn
        cases hlast : CartesianTree.lastInit cs u with
        | some n' =>
          rw [hlast] at hn
          obtain rfl := Option.some.inj hn
          exact (hheads u hu).1 n' hlast
        | none =>
          rw [hlast] at hn
          by_cases huj : u = j
          · subst huj
            simp only [if_true, Option.some.injEq] at hn
            subst hn
            exact hhead₁.congr ((hheads u hu).2 hlast)
          · simp [huj] at hn
      · unfold CartesianTree.lastInit at hnone
        cases hlast : CartesianTree.lastInit cs u with
        | some n' => rw [hlast] at hnone; simp at hnone
        | none =>
          rw [hlast] at hnone
          have huj : u ≠ j := by
            rintro rfl
            simp at hnone
          rw [(hheads u hu).2 hlast]
          exact hsame₁ u hu (by simpa using huj)

/-- The loop of `InitRegion`, from index `i` on. -/
theorem initSubordinates_spec {u n : Nat} (hfit : u + n ≤ layout.totalUnitCount) (todo : Nat) :
    ∀ i table, 0 < i → i + todo = n →
      ∃ table', initSubordinates (layout.unitPtr u) n todo i table = .ok table' ∧
        SameOutside layout (Set.Ico (u + i) (u + n)) table table' ∧
        ∀ k, i ≤ k → k < n → unitRole (table' (layout.unitPtr (u + k))) = SUBORDINATE_UNIT ∧
          (table' (layout.unitPtr (u + k))).liveInfo = layout.unitPtr u := by
  induction todo with
  | zero =>
    intro i table hi hn
    exact ⟨table, rfl, SameOutside.refl _ _, fun k hik hkn => by omega⟩
  | succ todo ih =>
    intro i table hi hn
    have hui : u + i < layout.totalUnitCount := by omega
    obtain ⟨table', hres, hsame, hsub⟩ := ih (i + 1)
      (initSubordinateUnit table (layout.unitPtr (u + i)) (layout.unitPtr u)) (by omega) (by omega)
    refine ⟨table', ?_, ?_, fun k hik hkn => ?_⟩
    · simp only [initSubordinates, unitInfoArrayGet_eq hfit (show i < n by omega), bind,
        Except.bind]
      exact hres
    · have hmem : u + i ∈ Set.Ico (u + i) (u + n) := ⟨Nat.le_refl _, by omega⟩
      refine SameOutside.trans (SameOutside.update hui hmem _ _) (hsame.mono ?_)
      exact Set.Ico_subset_Ico_left (by omega)
    · by_cases hk : k = i
      · subst hk
        rw [hsame (u + k) hui (by simp)]
        unfold initSubordinateUnit
        rw [Function.update_self]
        exact ⟨unitRole_setUnitRole _ _, rfl⟩
      · exact hsub k (by omega) hkn

/-- **`InitRegion`** stamps the records of its units and no other.  Each of them points to the head,
    so that an address in any unit of the region resolves. -/
theorem initRegion_spec {u n : Nat} (hn : 0 < n) (hfit : u + n ≤ layout.totalUnitCount)
    (role : UnitRole) (table : UnitTable) :
    ∃ table', initRegion layout table u n role = .ok (table', layout.unitPtr u) ∧
      SameOutside layout (Set.Ico u (u + n)) table table' ∧
      (role % 16 ≠ SUBORDINATE_UNIT → RegionRecords layout table' u n) ∧
      (table' (layout.unitPtr u)).regionEnd = layout.unitStart (u + n) := by
  have hu : u < layout.totalUnitCount := by omega
  obtain ⟨table', hres, hsame, hsub⟩ := initSubordinates_spec hfit (n - 1) 1
    (Function.update table (layout.unitPtr u)
      (initMetadata (table (layout.unitPtr u)) (layout.unitStart u) n role)) (by omega) (by omega)
  have hhead := hsame u hu (by simp)
  rw [Function.update_self] at hhead
  have hend : (table' (layout.unitPtr u)).regionEnd = layout.unitStart (u + n) := by
    rw [hhead, regionEnd_initMetadata, regionEnd_eq hfit]
  refine ⟨table', ?_, ?_, fun hrole => ⟨?_, hend, fun k hk hkn => hsub k hk hkn⟩, hend⟩
  · simp only [initRegion, getUnitInfo_eq hu, initRegionInfo_eq hu, bind, Except.bind, hres]
  · have hmem : u ∈ Set.Ico u (u + n) := ⟨Nat.le_refl _, by omega⟩
    refine SameOutside.trans (SameOutside.update hu hmem _ _) (hsame.mono ?_)
    exact Set.Ico_subset_Ico_left (by omega)
  · rw [hhead, unitRole_initMetadata]
    exact hrole

/-! ## Lookup -/

/-- The extent of a region, from the end its head records. -/
theorem region_extent {table : UnitTable} {u n : Nat}
    (hregionEnd : (table (layout.unitPtr u)).regionEnd = layout.unitStart (u + n)) (hn : 0 < n)
    (hfit : u + n ≤ layout.totalUnitCount) :
    getRegionStart layout (layout.unitPtr u) = .ok (layout.unitStart u) ∧
    getRegionSize layout table (layout.unitPtr u) = .ok (n * UNIT_SIZE) ∧
    getUnitCount layout table (layout.unitPtr u) = .ok n := by
  have hu : u < layout.totalUnitCount := by omega
  have hend : layout.unitStart (u + n) < 2 ^ 64 := unit_fits hfit
  rw [unitStart_add] at hend
  have hsizepos : 0 < n * UNIT_SIZE := Nat.mul_pos hn (by decide)
  have hstart := getRegionStart_eq hu
  have hsize : getRegionSize layout table (layout.unitPtr u) = .ok (n * UNIT_SIZE) := by
    unfold getRegionSize
    rw [hstart, hregionEnd, unitStart_add]
    simp only [bind, Except.bind]
    rw [if_neg (by omega), Words.sub_eq (by omega) (by omega), Nat.add_sub_cancel_left]
  refine ⟨hstart, hsize, ?_⟩
  unfold getUnitCount
  rw [hsize]
  exact congrArg Except.ok (Nat.mul_div_cancel n (by decide))

/-- **Region resolution**, from the records alone: the accessors of the head record give the
    region's extent, and every address in it resolves to the head. -/
theorem region_resolves {table : UnitTable} {u n : Nat} (h : RegionRecords layout table u n)
    (hn : 0 < n) (hfit : u + n ≤ layout.totalUnitCount) :
    getRegionStart layout (layout.unitPtr u) = .ok (layout.unitStart u) ∧
    getRegionSize layout table (layout.unitPtr u) = .ok (n * UNIT_SIZE) ∧
    getUnitCount layout table (layout.unitPtr u) = .ok n ∧
    ∀ addr, layout.unitStart u ≤ addr → addr < layout.unitStart u + n * UNIT_SIZE →
      getRegionInfoAt layout table addr = .ok (layout.unitPtr u) := by
  have hu : u < layout.totalUnitCount := by omega
  have hend : layout.unitStart (u + n) < 2 ^ 64 := unit_fits hfit
  rw [unitStart_add] at hend
  obtain ⟨hstart, hsize, hcount⟩ := region_extent h.regionEnd hn hfit
  refine ⟨hstart, hsize, hcount, fun addr hlow hhigh => ?_⟩
  -- the address lies in unit `u + k` of the region
  obtain ⟨k, hk⟩ : ∃ k, k = (addr - layout.unitStart u) / UNIT_SIZE := ⟨_, rfl⟩
  have hkn : k < n := by
    rw [hk]
    exact (Nat.div_lt_iff_lt_mul (by decide)).mpr (by omega)
  have hunit : getUnitInfoAt layout addr = .ok (layout.unitPtr (u + k)) := by
    have hdiv := Nat.div_add_mod (addr - layout.unitStart u) UNIT_SIZE
    have hmod := Nat.mod_lt (addr - layout.unitStart u) (show UNIT_SIZE > 0 by decide)
    rw [← hk, Nat.mul_comm] at hdiv
    refine getUnitInfoAt_eq (by omega) ?_ ?_ <;> rw [unitStart_add] <;> omega
  unfold getRegionInfoAt
  rw [hunit]
  simp only [bind, Except.bind]
  by_cases hk0 : k = 0
  · subst hk0
    rw [Nat.add_zero, if_neg h.role]
  · obtain ⟨hrole, hlive⟩ := h.subordinate k (by omega) hkn
    rw [if_pos hrole, hlive]

end RegionInfo

end CangjieRuntime.Heap
