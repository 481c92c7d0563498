/-
  Storage over whole runs of the tree: the node pool and the scratch deques.

  `Init` sizes both for `memoryBlockCount / 2 + 1` nodes, and nothing checks a bound afterwards.
  The size is right because free blocks are coalesced: two blocks of the tree never touch, so in
  the first `memoryBlockCount` units there is room for one block in two units and no more
  (`numNodes_le`).

    * a slot is added to the pool only when every slot is in use, so the bump pointer never passes
      the slot of the last node the tree can have;
    * the pool next to the tree is in memory (`Pool`): in a step the tree may write whatever it
      wants to the nodes it has, and it allocates and frees what the operation allocates and frees;
    * the deques follow from the number of nodes alone.
-/
import CangjieRuntime.Gc.ForwardDataZones
import CangjieRuntime.Heap.NodePool
import CangjieRuntime.Heap.TreeRuns

set_option linter.unusedVariables false

namespace CangjieRuntime.Heap

open SlotTree Blocks Runs
open Gc.ForwardData (allocUtilRndUp allocUtilRndUp_eq ALLOC_UTIL_PAGE_SIZE)

namespace CartesianTree

/-! ## `Init` -/

def nodeCount (memoryBlockCount : Nat) : Nat := memoryBlockCount / 2 + 1

/-- The size of the mapping of the node allocator. -/
def nativeMapSize (memoryBlockCount : Nat) : Nat :=
  allocUtilRndUp ((nodeCount memoryBlockCount + 7) * 24) ALLOC_UTIL_PAGE_SIZE

/-- The size of the mapping that the two deques share. -/
def dequeMapSize (memoryBlockCount : Nat) : Nat :=
  allocUtilRndUp (nodeCount memoryBlockCount * DEQUE_VAL_SIZE) ALLOC_UTIL_PAGE_SIZE

/-- The sizes of `Init` fit a word.  The build's arithmetic wraps (`--int-overflow wrapping`), so that
    the mapping for a larger count would be too small. -/
def Sized (memoryBlockCount : Nat) : Prop :=
  (nodeCount memoryBlockCount + 7) * 24 + ALLOC_UTIL_PAGE_SIZE ≤ 2 ^ 64

/-- A deque over the mapping, with whatever its earlier uses left in it. -/
structure OverMapping (memoryBlockCount : Nat) (sud : SingleUseDeque) : Prop where
  pos : DEQUE_VAL_SIZE ≤ sud.beginAddr
  size : sud.endAddr = sud.beginAddr + dequeMapSize memoryBlockCount

variable {memoryBlockCount base : Nat}

theorem le_nativeMapSize (h : Sized memoryBlockCount) :
    nodeCount memoryBlockCount * 24 ≤ nativeMapSize memoryBlockCount := by
  simp only [Sized, ALLOC_UTIL_PAGE_SIZE] at h
  rw [nativeMapSize, allocUtilRndUp_eq (by simp only [ALLOC_UTIL_PAGE_SIZE]; omega)]
  simp only [ALLOC_UTIL_PAGE_SIZE]
  omega

theorem OverMapping.mapped {sud : SingleUseDeque} (h : OverMapping memoryBlockCount sud)
    (hsized : Sized memoryBlockCount) : sud.Mapped (nodeCount memoryBlockCount) where
  pos := h.pos
  room := by
    simp only [Sized, ALLOC_UTIL_PAGE_SIZE] at hsized
    rw [h.size, dequeMapSize,
      allocUtilRndUp_eq (by simp only [ALLOC_UTIL_PAGE_SIZE, DEQUE_VAL_SIZE]; omega)]
    simp only [ALLOC_UTIL_PAGE_SIZE, DEQUE_VAL_SIZE]
    omega

/-! ## The runs -/

/-- The block an operation inserts lies in the first `memoryBlockCount` units. -/
def Op.Within (memoryBlockCount : Nat) : Op → Prop
  | .mergeInsert idx num _ => idx + num ≤ memoryBlockCount
  | _ => True

/-- The tree next to its pool. -/
def poolMachine (memoryBlockCount base : Nat) : System (CartesianTree × Pool) Op where
  init s := s.1 = init base ∧ s.2.head = 0 ∧ s.2.currAddr = base
  step s op s' := op.Allowed s.1 ∧ op.Within memoryBlockCount ∧
    (∃ r, op.apply s.1 = .ok (s'.1, r)) ∧ ∃ events live,
      Pool.Legal s.1.nodeAllocator s.1.liveSlots events s'.1.nodeAllocator live ∧
      live.Perm s'.1.liveSlots ∧ s'.2 = events.foldl Pool.Event.run s.2

/-- What an operation does to the pool, it does as a client. -/
theorem PoolStep.legal {t t' : CartesianTree} (h : PoolStep t t') : ∃ events live,
    Pool.Legal t.nodeAllocator t.liveSlots events t'.nodeAllocator live ∧
      live.Perm t'.liveSlots := by
  rcases h with ⟨freed, halloc, hlive⟩ | ⟨halloc, hlive⟩
  · obtain ⟨live, hperm, hlegal⟩ := Pool.legal_deallocate freed.reverse t.nodeAllocator t.liveSlots
      t'.liveSlots (hlive.trans (List.Perm.append_right _ (List.reverse_perm freed).symm))
    rw [List.reverse_reverse, ← halloc] at hlegal
    exact ⟨_, live, hlegal, hperm⟩
  · refine ⟨[.allocate], _, .allocate ?_, hlive.symm⟩
    rw [halloc]
    exact .nil _ _

/-- **Coalescing bounds the number of nodes.**  Between two blocks there is a unit that is not free,
    and so a node costs two units, but for the last one. -/
theorem numNodes_le {t : CartesianTree} (h : t.Inv)
    (hunits : t.freeUnits ⊆ Set.Iio memoryBlockCount) :
    t.root.numNodes ≤ nodeCount memoryBlockCount := by
  have hend : ∀ n ∈ inorder t.root, n.index + n.count ≤ memoryBlockCount := by
    intro n hn
    have hpos := h.sound.pos n hn
    have hlast : n.index + n.count - 1 < memoryBlockCount :=
      hunits (mem_freeUnits hn ⟨by omega, by omega⟩)
    omega
  have hroom := h.sound.coalesced.add_total_add_length_le 0 (Nat.zero_le _)
    (fun _ _ => Nat.zero_le _) hend
  have htotal := length_le_total h.sound.pos
  rw [numNodes_eq_length_inorder, nodeCount]
  omega

/-- The invariant of the runs.  The tree's invariant, the pool in memory that agrees with the tree's
    own, and the room that is left in the first `memoryBlockCount` units. -/
structure PoolInv (memoryBlockCount base : Nat) (t : CartesianTree) (p : Pool) : Prop where
  inv : t.Inv
  units : t.freeUnits ⊆ Set.Iio memoryBlockCount
  slots : Pool.Slots base t.nodeAllocator t.liveSlots
  room : t.poolSlots.length ≤ nodeCount memoryBlockCount
  agrees : Pool.Agrees p t.nodeAllocator

theorem poolInv_init (hbase : 0 < base) {p : Pool} (hhead : p.head = 0) (hcurr : p.currAddr = base) :
    PoolInv memoryBlockCount base (init base) p where
  inv := inv_init base
  units := by rw [freeUnits_init]; exact Set.empty_subset _
  slots := ⟨hbase, List.nodup_nil, fun x hx => absurd hx List.not_mem_nil, rfl⟩
  room := Nat.zero_le _
  agrees := ⟨hhead, hcurr⟩

/-- The slots there are after an operation. -/
theorem PoolStep.length_le {t t' : CartesianTree} (h : PoolStep t t') {n : Nat}
    (hroom : t.poolSlots.length ≤ n) (hlive : t'.liveSlots.length ≤ n) :
    t'.poolSlots.length ≤ n := by
  rcases h with ⟨freed, halloc, hperm⟩ | ⟨halloc, hperm⟩
  · have hlen := hperm.length_eq
    rw [List.length_append] at hlen
    rw [poolSlots, List.length_append] at hroom ⊢
    rw [halloc, List.length_append]
    simp only [liveSlots] at hlen
    omega
  · have hlen := hperm.length_eq
    rw [List.length_cons] at hlen
    rw [poolSlots, List.length_append] at hroom ⊢
    rw [halloc]
    unfold RTAllocator.allocate
    simp only [liveSlots] at hlen hlive
    cases hhead : t.nodeAllocator.head with
    | nil =>
      simp only [List.length_nil]
      omega
    | cons b l =>
      rw [hhead, List.length_cons] at hroom
      simp only
      omega

/-- **One operation.**  The operation's spec says how it used the allocator, and the pool in memory
    follows with `Legal.agrees`. -/
theorem PoolInv.step {t t' : CartesianTree} {p p' : Pool}
    (h : PoolInv memoryBlockCount base t p) {op : Op}
    (hstep : (poolMachine memoryBlockCount base).step (t, p) op (t', p')) :
    PoolInv memoryBlockCount base t' p' := by
  obtain ⟨hop, hwithin, ⟨r, hres⟩, events, live, hlegal, hlive, rfl⟩ := hstep
  simp only at hop hwithin hres hlegal hlive
  obtain ⟨t'', r', hres', hinv, hunits, -, -, hpool⟩ := apply_spec h.inv hop
  rw [hres] at hres'
  obtain ⟨rfl, rfl⟩ := Prod.mk.inj (Except.ok.inj hres')
  have hadded : op.added r ⊆ Set.Iio memoryBlockCount := by
    cases op with
    | mergeInsert idx num f =>
      intro u hu
      cases r with
      | inserted ok =>
        cases ok with
        | true => exact Nat.lt_of_lt_of_le hu.2 hwithin
        | false => exact absurd hu (Set.notMem_empty u)
      | taken idx => exact absurd hu (Set.notMem_empty u)
      | done => exact absurd hu (Set.notMem_empty u)
    | _ => exact fun u hu => absurd hu (Set.notMem_empty u)
  have hunits' : t'.freeUnits ⊆ Set.Iio memoryBlockCount := by
    rw [hunits]
    exact Set.sdiff_subset.trans (Set.union_subset h.units hadded)
  obtain ⟨hslots, hagrees⟩ := hlegal.agrees h.slots h.agrees
  have hnodes := numNodes_le hinv hunits'
  refine ⟨hinv, hunits', hslots.perm (List.Perm.append_right _ hlive.symm) rfl,
    hpool.length_le h.room ?_, hagrees⟩
  rw [liveSlots, List.length_map, ← numNodes_eq_length_inorder]
  exact hnodes

/-- Nothing the operations use of the mappings is outside them, and no slot is used twice. -/
structure PoolSafe (memoryBlockCount base : Nat) (t : CartesianTree) (p : Pool) : Prop where
  nodes : t.root.numNodes ≤ memoryBlockCount / 2 + 1
  bump : p.currAddr ≤ base + nativeMapSize memoryBlockCount
  /-- Every node has a slot of its own. -/
  slot : ∀ n ∈ inorder t.root, ∃ k, n.addr = base + 24 * k ∧ n.addr + 24 ≤ p.currAddr
  own : t.liveSlots.Nodup
  /-- The free list ends, visits no slot twice, and no slot in use. -/
  freeList : ∃ free, Pool.Chain p.left p.head free ∧ free.Nodup ∧ free.Disjoint t.liveSlots
  /-- The traversals push inside the mapping of the deque. -/
  scans : ∀ sud, OverMapping memoryBlockCount sud → ∀ mapping,
    (∀ idx num f, t.mergeInsertInternalScan sud mapping idx num f =
      ofTree (t.mergeInsertInternal idx num f)) ∧
    (∀ num f, t.takeUnitsImplScan sud mapping num f = ofTree (t.takeUnitsImpl num f)) ∧
    ∀ num best, t.findBestFitLowAddrPtrScan sud mapping (some []) num best =
      ofTree (t.findBestFitLowAddrPtr (some []) num best)
  /-- So does the iteration of `ClearTree`, which frees the nodes it iterates over. -/
  clear : ∀ sud, OverMapping memoryBlockCount sud → ∀ mapping, p.Stored t.root → ∃ p' t',
    p.clearTreeScan (Pool.rootAddr t.root) (t.root.numNodes + 1) sud mapping = .ok p' ∧
      t.clearTree = .ok t' ∧ Pool.Chain p'.left p'.head t'.nodeAllocator.head
  /-- Every operation can go on. -/
  next : ∀ op : Op, op.Allowed t → op.Within memoryBlockCount →
    ∃ s', (poolMachine memoryBlockCount base).step (t, p) op s'

theorem PoolInv.safe {t : CartesianTree} {p : Pool} (hsized : Sized memoryBlockCount)
    (h : PoolInv memoryBlockCount base t p) : PoolSafe memoryBlockCount base t p := by
  have hnodes := numNodes_le h.inv h.units
  have hcount : p.currAddr = base + 24 * t.poolSlots.length := by
    rw [h.agrees.currAddr]
    exact h.slots.count
  obtain ⟨hlive, hfree, hdisj⟩ := List.nodup_append'.mp h.slots.nodup
  refine ⟨hnodes, ?_, fun n hn => ?_, hlive, ⟨_, h.agrees.chain, hfree, hdisj.symm⟩,
    fun sud hsud mapping => ?_, fun sud hsud mapping hstored => ?_, fun op hop hwithin => ?_⟩
  · have := le_nativeMapSize hsized
    have := h.room
    omega
  · obtain ⟨k, hk, hlt⟩ := h.slots.slot n.addr
      (List.mem_append_left _ (List.mem_map_of_mem hn))
    refine ⟨k, hk, ?_⟩
    rw [← h.agrees.currAddr] at hlt
    omega
  · have hmapped := hsud.mapped hsized
    exact ⟨fun idx num f => mergeInsertInternalScan_eq hmapped hnodes mapping idx num f,
      fun num f => takeUnitsImplScan_eq hmapped hnodes mapping num f,
      fun num best => findBestFitLowAddrPtrScan_eq hmapped hnodes mapping num best⟩
  · obtain ⟨p', t', hclear, hres, hagrees⟩ := Pool.clearTreeScan_spec (hsud.mapped hsized) hnodes
      mapping h.agrees hstored h.slots.nodup
    exact ⟨p', t', hclear, hres, hagrees.chain⟩
  · obtain ⟨t', r, hres, -, -, -, -, hpool⟩ := apply_spec h.inv hop
    obtain ⟨events, live, hlegal, hperm⟩ := hpool.legal
    exact ⟨(t', events.foldl Pool.Event.run p), hop, hwithin, ⟨r, hres⟩, events, live, hlegal,
      hperm, rfl⟩

/-- **The node pool and the scratch deques never overflow or alias**, after every finite sequence of
    operations on the first `memoryBlockCount` units.  Two blocks have a unit between them that is
    not free, so that there are about half as many nodes as units at most; slots that were freed
    come first, so the bump pointer passes only as many. -/
theorem reachable_poolSafe (hsized : Sized memoryBlockCount) (hbase : 0 < base)
    {t : CartesianTree} {p : Pool} (h : (poolMachine memoryBlockCount base).Reachable (t, p)) :
    PoolSafe memoryBlockCount base t p := by
  have hinv : (poolMachine memoryBlockCount base).Invariant
      fun s => PoolInv memoryBlockCount base s.1 s.2 :=
    { init := by
        rintro ⟨t, p⟩ ⟨rfl, hhead, hcurr⟩
        exact poolInv_init hbase hhead hcurr
      step := fun s op s' hs hstep => hs.step hstep }
  exact (hinv.reachable h).safe hsized

/-- A block is inserted in the middle of 64 units, and the fields of its node are written. -/
theorem reachable_poolSafe_inserted : ∃ (t : CartesianTree) (p : Pool),
    (poolMachine 64 4096).Reachable (t, p) ∧ PoolSafe 64 4096 t p ∧
      t.root = .node ⟨4096, 10, 3⟩ .nil .nil ∧ p.currAddr = 4120 := by
  let p₀ : Pool := ⟨0, 4096, fun _ => 7, fun _ => 7⟩
  let events : List Pool.Event := [.allocate, .write 4096 0 0]
  let t₁ : CartesianTree :=
    ⟨3, .node ⟨4096, 10, 3⟩ .nil .nil, ⟨[], 4120⟩, [.initFreeRegion 10 3]⟩
  have h₀ : (poolMachine 64 4096).Reachable (init 4096, p₀) := .init ⟨rfl, rfl, rfl⟩
  have hlegal : Pool.Legal ⟨[], 4096⟩ [] events ⟨[], 4120⟩ [4096] :=
    .allocate (.write List.mem_cons_self (.nil _ _))
  have hstep : (poolMachine 64 4096).step (init 4096, p₀) (.mergeInsert 10 3 true)
      (t₁, events.foldl Pool.Event.run p₀) :=
    ⟨(by decide : 0 < 3 ∧ 10 + 3 < 2 ^ 32), (by decide : 10 + 3 ≤ 64), ⟨.inserted true, rfl⟩,
      events, [4096], hlegal, List.Perm.refl _, rfl⟩
  have h₁ := h₀.step hstep
  have hsized := reachable_poolSafe (by simp [Sized, nodeCount, ALLOC_UTIL_PAGE_SIZE]) (by decide) h₁
  exact ⟨_, _, h₁, hsized, rfl, rfl⟩

end CartesianTree

end CangjieRuntime.Heap
