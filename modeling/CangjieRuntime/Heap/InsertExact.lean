/-
  `MergeInsert` is exact and atomic.

  It returns true exactly for a block that shares no unit with a free block.  Then the blocks
  afterwards are those of before that do not touch the new one, and the new one joined with the
  one or two that do, wherever in the tree they are.  Otherwise the tree is the one of before.

  A coalesced sequence of blocks is determined by the set it covers, so which blocks there are
  follows from the free units alone.
-/
import CangjieRuntime.Heap.TreeMerge

set_option linter.unusedVariables false

namespace CangjieRuntime.Heap

open SlotTree Blocks

namespace CartesianTree

/-- The free blocks of a tree, start and length. -/
def blocks (t : CartesianTree) : Set (Nat × Nat) :=
  {p | ∃ n ∈ inorder t.root, n.index = p.1 ∧ n.count = p.2}

/-- The blocks of `t'` are those of `t`, with a new one that starts at `idx` and has `num` units
    and is joined with the block that ends where it starts and the one that starts where it ends. -/
structure Joined (t t' : CartesianTree) (idx num start stop : Nat) : Prop where
  left : (start = idx ∧ ∀ p ∈ t.blocks, p.1 + p.2 ≠ idx) ∨
    (start, idx - start) ∈ t.blocks ∧ start < idx
  right : (stop = idx + num ∧ ∀ p ∈ t.blocks, p.1 ≠ idx + num) ∨
    (idx + num, stop - (idx + num)) ∈ t.blocks ∧ idx + num < stop
  blocks : t'.blocks =
    {p ∈ t.blocks | p.1 + p.2 ≠ idx ∧ p.1 ≠ idx + num} ∪ {(start, stop - start)}

/-- The blocks are the maximal stretches of free units. -/
theorem mem_blocks_iff {t : CartesianTree} (h : t.Sound) (i c : Nat) :
    (i, c) ∈ t.blocks ↔ 0 < c ∧ Set.Ico i (i + c) ⊆ t.freeUnits ∧ i + c ∉ t.freeUnits ∧
      ∀ j, j + 1 = i → j ∉ t.freeUnits :=
  h.coalesced.mem_iff_maximal h.pos i c

/-- Two blocks that share a unit are the same. -/
theorem blocks_eq {t : CartesianTree} (h : t.Sound) {p q : Nat × Nat} (hp : p ∈ t.blocks)
    (hq : q ∈ t.blocks) {u : Nat} (hup : p.1 ≤ u ∧ u < p.1 + p.2)
    (huq : q.1 ≤ u ∧ u < q.1 + q.2) : p = q := by
  obtain ⟨n, hn, hn1, hn2⟩ := hp
  obtain ⟨m, hm, hm1, hm2⟩ := hq
  have heq := h.coalesced.eq_of_mem hn hm (u := u) (by omega) (by omega)
  subst heq
  exact Prod.ext (hn1.symm.trans hm1) (hn2.symm.trans hm2)

/-! ## Joining, from the free units

`t'` has the free units of `t` and those of an inserted block, which were not free. -/

section Joining

variable {t t' : CartesianTree} {idx num start stop : Nat}

/-- Where the joined block starts: at a block that ends where the inserted one starts. -/
theorem exists_joined_left (h : t.Sound) (idx : Nat) : ∃ start, start ≤ idx ∧
    ((start = idx ∧ ∀ p ∈ t.blocks, p.1 + p.2 ≠ idx) ∨
      (start, idx - start) ∈ t.blocks ∧ start < idx) := by
  by_cases hex : ∃ p ∈ t.blocks, p.1 + p.2 = idx
  · obtain ⟨⟨i, c⟩, hp, hend⟩ := hex
    have hc := ((mem_blocks_iff h i c).mp hp).1
    simp only at hend
    have hlength : idx - i = c := by omega
    refine ⟨i, by omega, Or.inr ⟨?_, by omega⟩⟩
    rw [hlength]
    exact hp
  · exact ⟨idx, Nat.le_refl _, Or.inl ⟨rfl, fun p hp hend => hex ⟨p, hp, hend⟩⟩⟩

/-- And where it stops. -/
theorem exists_joined_right (h : t.Sound) (stop : Nat) : ∃ stop', stop ≤ stop' ∧
    ((stop' = stop ∧ ∀ p ∈ t.blocks, p.1 ≠ stop) ∨
      (stop, stop' - stop) ∈ t.blocks ∧ stop < stop') := by
  by_cases hex : ∃ p ∈ t.blocks, p.1 = stop
  · obtain ⟨⟨i, c⟩, hp, rfl⟩ := hex
    have hc := ((mem_blocks_iff h _ c).mp hp).1
    refine ⟨i + c, by omega, Or.inr ⟨?_, by omega⟩⟩
    rw [Nat.add_sub_cancel_left]
    exact hp
  · exact ⟨stop, Nat.le_refl _, Or.inl ⟨rfl, fun p hp hend => hex ⟨p, hp, hend⟩⟩⟩

/-- The joined block is a maximal stretch of the new free units. -/
theorem joined_mem_blocks (h : t.Sound) (h' : t'.Sound) (hnum : 0 < num)
    (hdisj : ∀ u ∈ t.freeUnits, ¬ (idx ≤ u ∧ u < idx + num))
    (hunits : ∀ u, u ∈ t'.freeUnits ↔ u ∈ t.freeUnits ∨ idx ≤ u ∧ u < idx + num)
    (hstart : start ≤ idx) (hstop : idx + num ≤ stop)
    (hleft : (start = idx ∧ ∀ p ∈ t.blocks, p.1 + p.2 ≠ idx) ∨
      (start, idx - start) ∈ t.blocks ∧ start < idx)
    (hright : (stop = idx + num ∧ ∀ p ∈ t.blocks, p.1 ≠ idx + num) ∨
      (idx + num, stop - (idx + num)) ∈ t.blocks ∧ idx + num < stop) :
    (start, stop - start) ∈ t'.blocks := by
  have hin : ∀ p ∈ t.blocks, ∀ u, p.1 ≤ u → u < p.1 + p.2 → u ∈ t.freeUnits := fun p hp u h1 h2 =>
    ((mem_blocks_iff h p.1 p.2).mp hp).2.1 ⟨h1, h2⟩
  rw [mem_blocks_iff h', show start + (stop - start) = stop by omega]
  refine ⟨by omega, ?_, ?_, ?_⟩
  · intro u hu
    have hu1 : start ≤ u := hu.1
    have hu2 : u < stop := hu.2
    rw [hunits]
    -- an inserted unit, or one of a neighbour on either side
    by_cases hmid : idx ≤ u ∧ u < idx + num
    · exact Or.inr hmid
    · left
      by_cases hlow : u < idx
      · rcases hleft with ⟨heq, -⟩ | ⟨hb, -⟩
        · omega
        · exact hin _ hb u hu1 (by simp only; omega)
      · rcases hright with ⟨heq, -⟩ | ⟨hb, -⟩
        · omega
        · exact hin _ hb u (by simp only; omega) (by simp only; omega)
  · rw [hunits]
    rintro (hu | hu)
    · rcases hright with ⟨rfl, hnone⟩ | ⟨hb, hlt⟩
      · -- a free unit right behind the inserted ones would start a block there
        obtain ⟨n, hn, hlow, hhigh⟩ := hu
        have hne := hnone (n.index, n.count) ⟨n, hn, rfl, rfl⟩
        simp only at hne
        exact hdisj (idx + num - 1) ⟨n, hn, by omega, by omega⟩ (by omega)
      · have hmax := ((mem_blocks_iff h _ _).mp hb).2.2.1
        rw [show idx + num + (stop - (idx + num)) = stop by omega] at hmax
        exact hmax hu
    · omega
  · intro j hj
    rw [hunits]
    rintro (hu | hu)
    · rcases hleft with ⟨rfl, hnone⟩ | ⟨hb, hlt⟩
      · obtain ⟨n, hn, hlow, hhigh⟩ := hu
        have hne := hnone (n.index, n.count) ⟨n, hn, rfl, rfl⟩
        simp only at hne
        exact hdisj start ⟨n, hn, by omega, by omega⟩ (by omega)
      · exact ((mem_blocks_iff h _ _).mp hb).2.2.2 j hj hu
    · omega

/-- A block that does not touch the inserted one is still there. -/
theorem blocks_of_apart (h : t.Sound) (h' : t'.Sound) (hnum : 0 < num)
    (hdisj : ∀ u ∈ t.freeUnits, ¬ (idx ≤ u ∧ u < idx + num))
    (hunits : ∀ u, u ∈ t'.freeUnits ↔ u ∈ t.freeUnits ∨ idx ≤ u ∧ u < idx + num)
    {i c : Nat} (hb : (i, c) ∈ t.blocks) (hleft : i + c ≠ idx) (hright : i ≠ idx + num) :
    (i, c) ∈ t'.blocks := by
  obtain ⟨hc, hsub, hend, hbefore⟩ := (mem_blocks_iff h i c).mp hb
  refine (mem_blocks_iff h' i c).mpr ⟨hc, fun u hu => (hunits u).mpr (Or.inl (hsub hu)), ?_, ?_⟩
  · rw [hunits]
    rintro (hu | hu)
    · exact hend hu
    · exact hdisj (i + c - 1) (hsub ⟨by omega, by omega⟩) (by omega)
  · intro j hj
    rw [hunits]
    rintro (hu | hu)
    · exact hbefore j hj hu
    · exact hdisj i (hsub ⟨Nat.le_refl _, by omega⟩) (by omega)

/-- A block that holds none of the inserted units was there before, and touches none of them. -/
theorem blocks_of_free (h : t.Sound) (h' : t'.Sound) (hnum : 0 < num)
    (hunits : ∀ u, u ∈ t'.freeUnits ↔ u ∈ t.freeUnits ∨ idx ≤ u ∧ u < idx + num)
    {i c : Nat} (hb : (i, c) ∈ t'.blocks) (hold : Set.Ico i (i + c) ⊆ t.freeUnits) :
    (i, c) ∈ t.blocks ∧ i + c ≠ idx ∧ i ≠ idx + num := by
  obtain ⟨hc, -, hend, hbefore⟩ := (mem_blocks_iff h' i c).mp hb
  refine ⟨(mem_blocks_iff h i c).mpr ⟨hc, hold, ?_, ?_⟩, ?_, ?_⟩
  · intro hu
    exact hend ((hunits _).mpr (Or.inl hu))
  · intro j hj hu
    exact hbefore j hj ((hunits _).mpr (Or.inl hu))
  · intro hcontact
    exact hend ((hunits _).mpr (Or.inr (by omega)))
  · intro hcontact
    exact hbefore (idx + num - 1) (by omega) ((hunits _).mpr (Or.inr (by omega)))

end Joining

/-- **Joining**: what an insertion of units that are not free does to the blocks.  The sets decide,
    since the blocks of a coalesced tree are the maximal stretches of its units. -/
theorem joined_of_freeUnits {t t' : CartesianTree} (h : t.Sound) (h' : t'.Sound) {idx num : Nat}
    (hnum : 0 < num) (hdisj : Disjoint t.freeUnits (Set.Ico idx (idx + num)))
    (hunits : t'.freeUnits = t.freeUnits ∪ Set.Ico idx (idx + num)) :
    ∃ start stop, Joined t t' idx num start stop := by
  have hfree : ∀ u ∈ t.freeUnits, ¬ (idx ≤ u ∧ u < idx + num) := fun u hu hin =>
    Set.disjoint_left.mp hdisj hu hin
  have hmem : ∀ u, u ∈ t'.freeUnits ↔ u ∈ t.freeUnits ∨ idx ≤ u ∧ u < idx + num := by
    intro u
    rw [hunits]
    exact Iff.rfl
  obtain ⟨start, hstart, hleft⟩ := exists_joined_left h idx
  obtain ⟨stop, hstop, hright⟩ := exists_joined_right h (idx + num)
  have hjoined := joined_mem_blocks h h' hnum hfree hmem hstart hstop hleft hright
  refine ⟨start, stop, hleft, hright, Set.ext fun ⟨i, c⟩ => ?_⟩
  simp only [Set.mem_union, Set.mem_ofPred_eq, Set.mem_singleton_iff]
  constructor
  · intro hb
    by_cases heq : (i, c) = (start, stop - start)
    · exact Or.inr heq
    · -- another block of the new tree holds none of the inserted units
      refine Or.inl (blocks_of_free h h' hnum hmem hb ?_)
      intro u hu
      have hu' := ((mem_blocks_iff h' i c).mp hb).2.1 hu
      refine ((hmem u).mp hu').resolve_right fun hmid => heq ?_
      exact blocks_eq h' hb hjoined (u := u) hu ⟨by simp only; omega, by simp only; omega⟩
  · rintro (⟨hb, hne1, hne2⟩ | heq)
    · exact blocks_of_apart h h' hnum hfree hmem hb hne1 hne2
    · rw [heq]
      exact hjoined

/-! ## The insertion -/

/-- **`MergeInsert` is exact and atomic.**  It succeeds exactly when no block has a unit of the new
    one; then the free units are those from before and the new ones, and the new block is joined
    with the neighbours that it touches.  When it fails the tree is as it was: a node that the new
    block overlaps is met on the way down, before anything is written. -/
theorem mergeInsert_exact {t : CartesianTree} (h : t.Inv) {idx num : Nat} (f : Bool)
    (hnum : 0 < num) (hbound : idx + num < 2 ^ 32) :
    ∃ t' ok, t.mergeInsert idx num f = .ok (t', ok) ∧
      (ok = true ↔ ∀ n ∈ inorder t.root,
        Disjoint (Set.Ico n.index (n.index + n.count)) (Set.Ico idx (idx + num))) ∧
      (ok = true → t'.Inv ∧ t'.freeUnits = t.freeUnits ∪ Set.Ico idx (idx + num) ∧
        ∃ start stop, Joined t t' idx num start stop) ∧
      (ok = false → t' = t) ∧
      -- the `return false` of the second loop is not taken
      ∀ t₁ stack, t.mergeDescend idx num f t.root [] [] = .ok (some (t₁, stack)) →
        ∃ t₂, mergeRebalance idx (Words.add 32 idx num) stack t₁ = .ok (t₂, true) := by
  have hiff : Disjoint t.freeUnits (Set.Ico idx (idx + num)) ↔ ∀ n ∈ inorder t.root,
      Disjoint (Set.Ico n.index (n.index + n.count)) (Set.Ico idx (idx + num)) := by
    constructor
    · intro hd n hn
      exact hd.mono_left (mem_freeUnits hn)
    · intro hall
      refine Set.disjoint_left.mpr fun u hu hin => ?_
      obtain ⟨n, hn, hlow, hhigh⟩ := hu
      exact Set.disjoint_left.mp (hall n hn) ⟨hlow, hhigh⟩ hin
  have hrebalance : ∀ t₁ stack, t.mergeDescend idx num f t.root [] [] = .ok (some (t₁, stack)) →
      ∃ t₂, mergeRebalance idx (Words.add 32 idx num) stack t₁ = .ok (t₂, true) := by
    intro t₁ stack hres
    have hfit : Fits t [] idx num := ⟨by simp, by simp, by simp⟩
    rcases mergeDescend_spec h f hnum hbound t.root [] [] .root (by simp) hfit with
      ⟨hres', -⟩ | ⟨t₁', q, stack', hres', hstack, hq, hm⟩
    · rw [hres] at hres'
      cases hres'
    · rw [hres] at hres'
      obtain ⟨rfl, rfl⟩ := Prod.mk.inj (Option.some.inj (Except.ok.inj hres'))
      obtain ⟨n, l, r, hroot, hheap, htl, htr⟩ := hm.root
      obtain ⟨t₂, hres₂, -⟩ := mergeRebalance_spec h hstack t₁ n l r hq hroot hheap htl htr
      exact ⟨t₂, by rw [Words.add_eq hbound]; exact hres₂⟩
  rcases mergeInsert_spec h f hnum hbound with ⟨hres, hover⟩ | ⟨t', hres, hinv, hdisj, hunits, -⟩
  · refine ⟨t, false, hres, ?_, fun hok => absurd hok (by decide), fun _ => rfl, hrebalance⟩
    exact ⟨fun hok => absurd hok (by decide), fun hall => absurd (hiff.mpr hall) hover⟩
  · refine ⟨t', true, hres, ⟨fun _ => hiff.mp hdisj, fun _ => rfl⟩, fun _ => ⟨hinv, hunits, ?_⟩,
      fun hok => absurd hok (by decide), hrebalance⟩
    exact joined_of_freeUnits h.sound hinv.sound hnum hdisj hunits

/-- The blocks `[10, 13)` and `[20, 25)`. -/
def twoBlocks : CartesianTree where
  totalCount := 8
  root := .node ⟨24, 20, 5⟩ (.node ⟨0, 10, 3⟩ .nil .nil) .nil
  nodeAllocator := ⟨[], 48⟩
  regionCalls := []

theorem twoBlocks_inv : twoBlocks.Inv where
  sound :=
    { coalesced := by simp [twoBlocks, Coalesced]
      pos := by simp [twoBlocks]
      bound := by simp [twoBlocks]
      total := rfl
      pool := ⟨by decide, by decide⟩ }
  heap := by simp [twoBlocks]

/-- The units between the two blocks, which join both. -/
theorem mergeInsert_exact_between : ∃ t', twoBlocks.mergeInsert 13 7 true = .ok (t', true) ∧
    t'.root = .node ⟨24, 10, 15⟩ .nil .nil ∧ ∃ start stop, Joined twoBlocks t' 13 7 start stop := by
  obtain ⟨t', ok, hres, -, htrue, -⟩ := mergeInsert_exact twoBlocks_inv true
    (show 0 < 7 by decide) (show 13 + 7 < 2 ^ 32 by decide)
  have heval : ∃ t₁, twoBlocks.mergeInsert 13 7 true = .ok (t₁, true) ∧
      t₁.root = .node ⟨24, 10, 15⟩ .nil .nil := ⟨_, rfl, rfl⟩
  obtain ⟨t₁, hres₁, hroot⟩ := heval
  obtain ⟨rfl, rfl⟩ := Prod.mk.inj (Except.ok.inj (hres.symm.trans hres₁))
  exact ⟨t', hres₁, hroot, (htrue rfl).2.2⟩

end CartesianTree

end CangjieRuntime.Heap
