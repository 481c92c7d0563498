/-
  What a Cartesian tree of free blocks is allowed to look like.

  `Sound` collects the conditions on the inorder sequence of blocks, the running total and the node
  pool; `Inv` adds the max-heap order on counts.  The split is what the proofs of the operations
  need: a rotation leaves the inorder sequence alone, so it keeps `Sound` for free (`Rotated`),
  and only the heap order has to be followed through the loops.

  `Recorded` describes the calls an operation makes into `RegionInfo`: they stay inside the free
  units, and after them the last call for a node's index carries that node's count.
-/
import CangjieRuntime.Lib.Blocks
import CangjieRuntime.Heap.CartesianTree

set_option linter.unusedVariables false

namespace CangjieRuntime.Heap

open SlotTree Blocks

/-- The call initialises a stretch of `after`, or releases from a unit of `before`. -/
def RegionCall.Covered (before after : Set Nat) : RegionCall → Prop
  | .initFreeRegion i k => 0 < k ∧ Set.Ico i (i + k) ⊆ after
  | .releaseUnits i _ => i ∈ before

/-- The call initialises a stretch inside `[low, high)`. -/
def RegionCall.Inside (low high : Nat) : RegionCall → Prop
  | .initFreeRegion i k => 0 < k ∧ low ≤ i ∧ i + k ≤ high
  | .releaseUnits _ _ => False

namespace CartesianTree

/-! ## The invariant -/

/-- The units the tree holds. -/
def freeUnits (t : CartesianTree) : Set Nat :=
  span CartesianNode.index CartesianNode.count (inorder t.root)

/-- The storage addresses in use and on the free list. -/
def poolSlots (t : CartesianTree) : List Nat :=
  (inorder t.root).map CartesianNode.addr ++ t.nodeAllocator.head

/-- The node pool hands out every slot once: in use or free, below the bump address. -/
structure PoolSound (t : CartesianTree) : Prop where
  nodup : t.poolSlots.Nodup
  below : ∀ a ∈ t.poolSlots, a < t.nodeAllocator.currAddr

/-- The blocks are in order, disjoint and non-adjacent, none is empty or reaches past a 32-bit
    index, and the total is their sum. -/
structure Sound (t : CartesianTree) : Prop where
  coalesced : Coalesced CartesianNode.index CartesianNode.count (inorder t.root)
  pos : ∀ n ∈ inorder t.root, 0 < n.count
  bound : ∀ n ∈ inorder t.root, n.index + n.count < 2 ^ 32
  total : t.totalCount = Blocks.total CartesianNode.count (inorder t.root)
  pool : t.PoolSound

/-- The representation invariant: `Sound`, and a max-heap on the counts. -/
structure Inv (t : CartesianTree) : Prop where
  sound : t.Sound
  heap : HeapOrdered CartesianNode.count t.root

/-- A tree just made has no blocks, and its pool has handed nothing out. -/
theorem inv_init (base : Nat) : (init base).Inv where
  sound :=
    { coalesced := List.Pairwise.nil
      pos := by simp [init]
      bound := by simp [init]
      total := rfl
      pool := ⟨by simp [init, poolSlots], by simp [init, poolSlots]⟩ }
  heap := trivial

/-- It has no free units either. -/
@[simp] theorem freeUnits_init (base : Nat) : (init base).freeUnits = ∅ := by
  simp [init, freeUnits]

/-- A block of the tree at a slot. -/
theorem mem_of_subtree {t : CartesianTree} {p : Slot} {n : CartesianNode}
    {l r : BinaryTree CartesianNode} (h : subtree t.root p = .node n l r) :
    n ∈ inorder t.root := mem_inorder_of_subtree (p := p) (by rw [h]; simp)

/-- The units of all blocks together fit 32 bits, since the blocks are apart and end below `2 ^
    32`. -/
theorem Sound.totalCount_lt {t : CartesianTree} (h : t.Sound) : t.totalCount < 2 ^ 32 := by
  have := h.coalesced.add_total_le 0 (2 ^ 32 - 1) (by omega) (fun _ _ => Nat.zero_le _)
    (fun n hn => by have := h.bound n hn; omega)
  rw [h.total]; omega

/-- No block has more units than the tree counts. -/
theorem Sound.count_le_total {t : CartesianTree} (h : t.Sound) {n : CartesianNode}
    (hn : n ∈ inorder t.root) : n.count ≤ t.totalCount := by
  rw [h.total]; exact len_le_total hn

/-- The units of a block are free. -/
theorem mem_freeUnits {t : CartesianTree} {n : CartesianNode} (hn : n ∈ inorder t.root) :
    Set.Ico n.index (n.index + n.count) ⊆ t.freeUnits :=
  fun u hu => ⟨n, hn, hu.1, hu.2⟩

/-! ## The fields each primitive touches -/

@[simp] theorem root_write (t : CartesianTree) (p : Slot) (s : BinaryTree CartesianNode) :
    (t.write p s).root = graft t.root p s := rfl
@[simp] theorem totalCount_write (t : CartesianTree) (p : Slot) (s : BinaryTree CartesianNode) :
    (t.write p s).totalCount = t.totalCount := rfl
@[simp] theorem nodeAllocator_write (t : CartesianTree) (p : Slot)
    (s : BinaryTree CartesianNode) : (t.write p s).nodeAllocator = t.nodeAllocator := rfl
@[simp] theorem regionCalls_write (t : CartesianTree) (p : Slot) (s : BinaryTree CartesianNode) :
    (t.write p s).regionCalls = t.regionCalls := rfl

@[simp] theorem root_call (t : CartesianTree) (c : RegionCall) : (t.call c).root = t.root := rfl
@[simp] theorem totalCount_call (t : CartesianTree) (c : RegionCall) :
    (t.call c).totalCount = t.totalCount := rfl
@[simp] theorem nodeAllocator_call (t : CartesianTree) (c : RegionCall) :
    (t.call c).nodeAllocator = t.nodeAllocator := rfl
@[simp] theorem regionCalls_call (t : CartesianTree) (c : RegionCall) :
    (t.call c).regionCalls = t.regionCalls ++ [c] := rfl

@[simp] theorem root_refreshIf (t : CartesianTree) (c : Bool) (i k : Nat) :
    (t.refreshIf c i k).root = t.root := by cases c <;> rfl
@[simp] theorem totalCount_refreshIf (t : CartesianTree) (c : Bool) (i k : Nat) :
    (t.refreshIf c i k).totalCount = t.totalCount := by cases c <;> rfl
@[simp] theorem nodeAllocator_refreshIf (t : CartesianTree) (c : Bool) (i k : Nat) :
    (t.refreshIf c i k).nodeAllocator = t.nodeAllocator := by cases c <;> rfl
@[simp] theorem regionCalls_refreshIf (t : CartesianTree) (c : Bool) (i k : Nat) :
    (t.refreshIf c i k).regionCalls =
      t.regionCalls ++ if c then [.initFreeRegion i k] else [] := by cases c <;> simp [refreshIf]

@[simp] theorem root_deallocate (t : CartesianTree) (a : Nat) :
    (t.deallocate a).root = t.root := rfl
@[simp] theorem totalCount_deallocate (t : CartesianTree) (a : Nat) :
    (t.deallocate a).totalCount = t.totalCount := rfl
@[simp] theorem head_deallocate (t : CartesianTree) (a : Nat) :
    (t.deallocate a).nodeAllocator.head = a :: t.nodeAllocator.head := rfl
@[simp] theorem currAddr_deallocate (t : CartesianTree) (a : Nat) :
    (t.deallocate a).nodeAllocator.currAddr = t.nodeAllocator.currAddr := rfl
@[simp] theorem regionCalls_deallocate (t : CartesianTree) (a : Nat) :
    (t.deallocate a).regionCalls = t.regionCalls := rfl

@[simp] theorem root_incTotalCount (t : CartesianTree) (cnt : Nat) :
    (t.incTotalCount cnt).root = t.root := rfl
@[simp] theorem totalCount_incTotalCount (t : CartesianTree) (cnt : Nat) :
    (t.incTotalCount cnt).totalCount = Words.add 32 t.totalCount cnt := rfl
@[simp] theorem nodeAllocator_incTotalCount (t : CartesianTree) (cnt : Nat) :
    (t.incTotalCount cnt).nodeAllocator = t.nodeAllocator := rfl
@[simp] theorem regionCalls_incTotalCount (t : CartesianTree) (cnt : Nat) :
    (t.incTotalCount cnt).regionCalls = t.regionCalls := rfl

/-! ## The calls into `RegionInfo` -/

/-- The count the last `InitFreeRegion` for index `i` was called with. -/
def lastInit : List RegionCall → Nat → Option Nat
  | [], _ => none
  | .releaseUnits _ _ :: cs, i => lastInit cs i
  | .initFreeRegion j k :: cs, i =>
    match lastInit cs i with
    | some k' => some k'
    | none => if i = j then some k else none

/-- The calls between `t` and `t'`: every `InitFreeRegion` covers units free in `t'` and every
    `ReleaseUnits` starts at a unit free in `t`; with `refreshRegionInfo` every block of `t'` is
    either a block of `t` nothing was written for, or the last call for its index has its count. -/
def Recorded (refreshRegionInfo : Bool) (t t' : CartesianTree) : Prop :=
  ∃ cs, t'.regionCalls = t.regionCalls ++ cs ∧
    (∀ c ∈ cs, RegionCall.Covered t.freeUnits t'.freeUnits c) ∧
    (refreshRegionInfo = true → ∀ n ∈ inorder t'.root,
      lastInit cs n.index = some n.count ∨
        (lastInit cs n.index = none ∧ ∃ m ∈ inorder t.root, m.index = n.index ∧ m.count = n.count))

/-- Without an operation nothing is recorded, and nothing has changed. -/
theorem Recorded.refl (refreshRegionInfo : Bool) (t : CartesianTree) :
    Recorded refreshRegionInfo t t :=
  ⟨[], by simp, by simp, fun _ n hn => Or.inr ⟨rfl, n, hn, rfl, rfl⟩⟩

/-- An index that no call starts at has no last call. -/
theorem lastInit_eq_none {cs : List RegionCall} {j : Nat}
    (h : ∀ i k, .initFreeRegion i k ∈ cs → i ≠ j) : lastInit cs j = none := by
  induction cs with
  | nil => rfl
  | cons c cs ih =>
    have hcs := ih fun i k hik => h i k (List.mem_cons_of_mem _ hik)
    cases c with
    | releaseUnits i k => exact hcs
    | initFreeRegion i k =>
      have hij : j ≠ i := (h i k (List.mem_cons_self ..)).symm
      simp [lastInit, hcs, hij]

/-! ## The blocks around a node -/

/-- The blocks of a tree, split at the node in a slot. -/
theorem inorder_at {t : CartesianTree} {p : Slot} {n : CartesianNode}
    {l r : BinaryTree CartesianNode} (hn : subtree t.root p = .node n l r) :
    inorder t.root =
      before t.root p ++ inorder l ++ n :: (inorder r ++ after t.root p) := by
  have := inorder_split (reaches_of_subtree hn)
  rw [hn, inorder_node] at this
  rw [this]; simp

/-- The blocks around a node, read off the inorder sequence. -/
theorem Sound.around {t : CartesianTree} (h : t.Sound) {p : Slot} {n : CartesianNode}
    {l r : BinaryTree CartesianNode} (hn : subtree t.root p = .node n l r) :
    Coalesced CartesianNode.index CartesianNode.count (before t.root p ++ inorder l) ∧
    Coalesced CartesianNode.index CartesianNode.count (inorder r ++ after t.root p) ∧
    (∀ b ∈ before t.root p ++ inorder l, b.index + b.count < n.index) ∧
    (∀ b ∈ inorder r ++ after t.root p, n.index + n.count < b.index) := by
  have hc := h.coalesced
  rw [inorder_at hn] at hc
  obtain ⟨hrest, hbelow, habove⟩ := coalesced_middle.mp hc
  obtain ⟨hleft, hright, -⟩ := coalesced_append.mp hrest
  exact ⟨hleft, hright, hbelow, habove⟩

/-! ## The two node updates -/

/-- `IncCount` grows the block at a slot, if the new count is not 0 and fits 32 bits, and records
    the block if it is told to. -/
theorem incCount_eq {t : CartesianTree} {p : Slot} {n : CartesianNode}
    {l r : BinaryTree CartesianNode} (hn : subtree t.root p = .node n l r) (num : Nat) (f : Bool)
    (hpos : 0 < n.count + num) (hlt : n.count + num < 2 ^ 32) :
    t.incCount p num f = .ok ((t.write p (.node { n with count := n.count + num } l r)).refreshIf f
      n.index (n.count + num)) := by
  unfold incCount
  rw [hn]
  simp [Words.add_eq hlt, hpos]

/-- `UpdateNode` sets index and count of the block at a slot, and records the block if it is told
    to. -/
theorem updateNode_eq {t : CartesianTree} {p : Slot} {n : CartesianNode}
    {l r : BinaryTree CartesianNode} (hn : subtree t.root p = .node n l r) (idx cnt : Nat)
    (f : Bool) :
    t.updateNode p idx cnt f = .ok ((t.write p (.node { n with index := idx, count := cnt } l r)
      ).refreshIf (f && 0 < cnt) idx cnt) := by
  unfold updateNode
  rw [hn]

/-! ## Rotations change the shape only -/

/-- `t'` is `t` with another tree over the same inorder sequence. -/
def Rotated (t t' : CartesianTree) : Prop :=
  ∃ s, t' = { t with root := s } ∧ inorder s = inorder t.root

/-- A tree is a rotation of itself. -/
theorem Rotated.refl (t : CartesianTree) : Rotated t t := ⟨t.root, rfl, rfl⟩

/-- Rotations are put together. -/
theorem Rotated.trans {t t' t'' : CartesianTree} (h : Rotated t t') (h' : Rotated t' t'') :
    Rotated t t'' := by
  obtain ⟨s, rfl, hs⟩ := h
  obtain ⟨s', rfl, hs'⟩ := h'
  exact ⟨s', rfl, hs'.trans hs⟩

/-- A subtree that is replaced by one with the same sequence is a rotation. -/
theorem Rotated.write {t : CartesianTree} {p : Slot} {s : BinaryTree CartesianNode}
    (hp : Reaches t.root p) (hs : inorder s = inorder (subtree t.root p)) :
    Rotated t (t.write p s) :=
  ⟨_, rfl, by rw [inorder_graft hp, hs, ← inorder_split hp]⟩

/-- A rotation keeps the blocks and their order. -/
theorem Rotated.inorder_eq {t t' : CartesianTree} (h : Rotated t t') :
    inorder t'.root = inorder t.root := by
  obtain ⟨s, rfl, hs⟩ := h; exact hs

/-- It allocates and frees no node. -/
theorem Rotated.nodeAllocator_eq {t t' : CartesianTree} (h : Rotated t t') :
    t'.nodeAllocator = t.nodeAllocator := by
  obtain ⟨s, rfl, -⟩ := h; rfl

/-- It keeps the free units. -/
theorem Rotated.freeUnits_eq {t t' : CartesianTree} (h : Rotated t t') :
    t'.freeUnits = t.freeUnits := by
  unfold freeUnits; rw [h.inorder_eq]

/-- So everything but the heap order survives a rotation; that order is what rotations are for. -/
theorem Sound.rotated {t t' : CartesianTree} (h : t.Sound) (hr : Rotated t t') : t'.Sound := by
  obtain ⟨s, rfl, hs⟩ := hr
  exact
    { coalesced := by simpa only [hs] using h.coalesced
      pos := by simpa only [hs] using h.pos
      bound := by simpa only [hs] using h.bound
      total := by simpa only [hs] using h.total
      pool :=
        ⟨by simpa only [poolSlots, hs] using h.pool.nodup,
          by simpa only [poolSlots, hs] using h.pool.below⟩ }

/-- A rotation needs no record. -/
theorem Recorded.rotated {f : Bool} {t t' t'' : CartesianTree} (h : Recorded f t t')
    (hr : Rotated t' t'') : Recorded f t t'' := by
  obtain ⟨cs, hcs, hin, hheads⟩ := h
  obtain ⟨s, rfl, hs⟩ := hr
  refine ⟨cs, hcs, ?_, ?_⟩
  · simpa only [freeUnits, hs] using hin
  · simpa only [hs] using hheads

/-! ## Replacing a stretch of blocks -/

/-- The pool stays sound when its slots are permuted. -/
theorem PoolSound.perm {t t' : CartesianTree} (h : t.PoolSound)
    (hp : t'.poolSlots.Perm t.poolSlots)
    (hc : t'.nodeAllocator.currAddr = t.nodeAllocator.currAddr) : t'.PoolSound :=
  ⟨hp.nodup_iff.mpr h.nodup, fun a ha => by rw [hc]; exact h.below a (hp.mem_iff.mp ha)⟩

/-- The slots in use. -/
def liveSlots (t : CartesianTree) : List Nat := (inorder t.root).map CartesianNode.addr

/-- What one operation may do to the pool: it frees slots in use, or it allocates one. -/
def PoolStep (t t' : CartesianTree) : Prop :=
  (∃ freed, t'.nodeAllocator = ⟨freed ++ t.nodeAllocator.head, t.nodeAllocator.currAddr⟩ ∧
    t.liveSlots.Perm (freed ++ t'.liveSlots)) ∨
  (t'.nodeAllocator = t.nodeAllocator.allocate.2 ∧
    t'.liveSlots.Perm (t.nodeAllocator.allocate.1 :: t.liveSlots))

/-- The pool without an operation. -/
theorem PoolStep.refl (t : CartesianTree) : PoolStep t t := Or.inl ⟨[], rfl, List.Perm.refl _⟩

/-- An operation that neither takes nor frees a slot may follow. -/
theorem PoolStep.trans_same {t t' t'' : CartesianTree} (h : PoolStep t t')
    (hslots : t''.liveSlots = t'.liveSlots) (halloc : t''.nodeAllocator = t'.nodeAllocator) :
    PoolStep t t'' := by
  unfold PoolStep
  rw [hslots, halloc]
  exact h

/-- The pool stays sound. -/
theorem PoolSound.step {t t' : CartesianTree} (h : t.PoolSound) (hs : PoolStep t t') :
    t'.PoolSound := by
  rcases hs with ⟨freed, halloc, hlive⟩ | ⟨halloc, hlive⟩
  · refine h.perm ?_ (by rw [halloc])
    rw [poolSlots, poolSlots, halloc, ← List.append_assoc]
    refine List.Perm.append_right _ (List.Perm.trans List.perm_append_comm hlive.symm)
  · have hpool : t'.poolSlots.Perm (t.nodeAllocator.allocate.1 ::
        (t.liveSlots ++ t.nodeAllocator.allocate.2.head)) := by
      rw [poolSlots, halloc]
      exact List.Perm.append_right _ hlive
    unfold RTAllocator.allocate at hpool halloc
    match hhead : t.nodeAllocator.head with
    | [] =>
      simp only [hhead] at hpool halloc
      have hslots : t.poolSlots = t.liveSlots ++ [] := by rw [poolSlots, hhead]; rfl
      rw [← hslots] at hpool
      refine ⟨hpool.nodup_iff.mpr (List.nodup_cons.mpr ⟨fun hmem => ?_, h.nodup⟩), fun a ha => ?_⟩
      · exact Nat.lt_irrefl _ (h.below _ hmem)
      · rw [halloc]
        rcases List.mem_cons.mp (hpool.mem_iff.mp ha) with rfl | ha
        · exact Nat.lt_add_of_pos_right (by decide)
        · exact Nat.lt_add_right 24 (h.below a ha)
    | a :: rest =>
      simp only [hhead] at hpool halloc
      refine h.perm (hpool.trans ?_) (by rw [halloc])
      rw [poolSlots, hhead]
      exact List.perm_middle.symm

/-- What replacing the blocks `mid` by the one block `m` has to satisfy. -/
theorem Sound.replace {t t' : CartesianTree} (h : t.Sound)
    {x mid y : List CartesianNode} {m : CartesianNode}
    (hold : inorder t.root = x ++ mid ++ y) (hnew : inorder t'.root = x ++ m :: y)
    (hx : ∀ b ∈ x, b.index + b.count < m.index) (hy : ∀ b ∈ y, m.index + m.count < b.index)
    (hpos : 0 < m.count) (hbound : m.index + m.count < 2 ^ 32)
    (htotal : t'.totalCount + Blocks.total CartesianNode.count mid = t.totalCount + m.count)
    (hpool : t'.PoolSound) : t'.Sound := by
  have hsub : (x ++ y).Sublist (inorder t.root) := by
    rw [hold, List.append_assoc]
    exact List.Sublist.append (List.Sublist.refl x) (List.sublist_append_right mid y)
  have hmem : ∀ n ∈ inorder t'.root, n = m ∨ n ∈ inorder t.root := by
    intro n hn
    rw [hnew] at hn
    rcases List.mem_append.mp hn with hn | hn
    · exact Or.inr (hsub.subset (List.mem_append_left _ hn))
    · rcases List.mem_cons.mp hn with hn | hn
      · exact Or.inl hn
      · exact Or.inr (hsub.subset (List.mem_append_right _ hn))
  refine ⟨?_, ?_, ?_, ?_, hpool⟩
  · rw [hnew]
    exact coalesced_middle.mpr ⟨h.coalesced.sublist hsub, hx, hy⟩
  · intro n hn
    rcases hmem n hn with rfl | hn
    · exact hpos
    · exact h.pos n hn
  · intro n hn
    rcases hmem n hn with rfl | hn
    · exact hbound
    · exact h.bound n hn
  · have htot := h.total
    rw [hold, total_append, total_append] at htot
    rw [hnew, total_append, total_cons]
    omega

/-- The calls made while the blocks `mid` became the block `m` all lie inside `m`, so they miss
    the heads of the other blocks. -/
theorem Recorded.replace {f : Bool} {t t' : CartesianTree} {cs : List RegionCall}
    {x mid y : List CartesianNode} {m : CartesianNode}
    (hold : inorder t.root = x ++ mid ++ y) (hnew : inorder t'.root = x ++ m :: y)
    (hx : ∀ b ∈ x, b.index + b.count < m.index) (hy : ∀ b ∈ y, m.index + m.count < b.index)
    (hcs : t'.regionCalls = t.regionCalls ++ cs)
    (hin : ∀ c ∈ cs, RegionCall.Inside m.index (m.index + m.count) c)
    (hlast : f = true → lastInit cs m.index = some m.count) : Recorded f t t' := by
  refine ⟨cs, hcs, fun c hc => ?_, fun hf n hn => ?_⟩
  · cases c with
    | releaseUnits i k => exact (hin _ hc).elim
    | initFreeRegion i k =>
      obtain ⟨hk, hlow, hhigh⟩ := hin _ hc
      refine ⟨hk, fun u hu => ?_⟩
      exact ⟨m, by rw [hnew]; simp, by have := hu.1; omega, by have := hu.2; omega⟩
  · rw [hnew] at hn
    have hother : n ∈ x ∨ n ∈ y → lastInit cs n.index = none ∧
        ∃ m ∈ inorder t.root, m.index = n.index ∧ m.count = n.count := by
      intro hxy
      refine ⟨lastInit_eq_none fun i k hik => ?_, n, ?_, rfl, rfl⟩
      · obtain ⟨hk, hlow, hhigh⟩ := hin _ hik
        rcases hxy with hxy | hxy
        · have := hx n hxy; omega
        · have := hy n hxy; omega
      · rw [hold]
        rcases hxy with hxy | hxy <;> simp [hxy]
    rcases List.mem_append.mp hn with hn | hn
    · exact Or.inr (hother (Or.inl hn))
    · rcases List.mem_cons.mp hn with rfl | hn
      · exact Or.inl (hlast hf)
      · exact Or.inr (hother (Or.inr hn))

/-- Dropping the block `m`. -/
theorem Sound.remove {t t' : CartesianTree} (h : t.Sound)
    {x y : List CartesianNode} {m : CartesianNode}
    (hold : inorder t.root = x ++ m :: y) (hnew : inorder t'.root = x ++ y)
    (htotal : t'.totalCount + m.count = t.totalCount) (hpool : t'.PoolSound) : t'.Sound := by
  have hsub : (inorder t'.root).Sublist (inorder t.root) := by
    rw [hnew, hold]
    exact List.Sublist.append (List.Sublist.refl x) (List.sublist_cons_self m y)
  refine ⟨h.coalesced.sublist hsub, fun n hn => h.pos n (hsub.subset hn),
    fun n hn => h.bound n (hsub.subset hn), ?_, hpool⟩
  have htot := h.total
  rw [hold, total_append, total_cons] at htot
  rw [hnew, total_append]
  omega

end CartesianTree

end CangjieRuntime.Heap
