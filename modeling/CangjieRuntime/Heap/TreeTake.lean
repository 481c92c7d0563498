/-
  The take, release and clear operations on a tree that satisfies the invariant.

  All of them shrink one node and then repair the heap below it.  Lowering a node moves its larger
  child up, so one call of `LowerImproperNodeOnce` leaves a proper node behind and continues in a
  smaller subtree with the same inorder sequence; that is the induction of both `Maintain...`
  loops (`maintainZero_spec`, `maintainNonZero_spec`).  The searches that pick the node to take
  from only have to end at a slot with enough units.
-/
import CangjieRuntime.Heap.TreeInvariant

set_option linter.unusedVariables false

namespace CangjieRuntime.Heap

open SlotTree Blocks

namespace CartesianTree

/-! ## Writes through nested slots -/

/-- To write a subtree back where it is changes nothing. -/
theorem write_subtree (t : CartesianTree) (p : Slot) : t.write p (subtree t.root p) = t := by
  unfold write; rw [graft_subtree]

/-- Two writes, the second inside of what the first wrote, are one. -/
theorem write_write_append {t : CartesianTree} {p : Slot} (hp : Reaches t.root p) (d : Slot)
    (s u : BinaryTree CartesianNode) : (t.write p s).write (p ++ d) u = t.write p (graft s d u) := by
  unfold write; simp only [graft_graft_append hp]

/-- A subtree has at most the nodes of the tree. -/
theorem numNodes_subtree_le (t : BinaryTree CartesianNode) (p : Slot) :
    (subtree t p).numNodes ≤ t.numNodes := by
  induction t, p using SlotTree.subtree.induct with
  | case1 t => simp
  | case2 d p => simp
  | case3 a l r p ih => simp; omega
  | case4 a l r p ih => simp; omega

/-- The count of a node, 0 for none, is the key at the top of the subtree. -/
theorem countOrZero_eq_topKey (s : BinaryTree CartesianNode) :
    countOrZero s = topKey CartesianNode.count s := by cases s <;> rfl

/-! ## Lowering a node -/

/-- `LowerImproperNodeOnce` of a node with a child: the larger child `a` comes up over the node,
    which continues, one level down, with fewer nodes below it. -/
theorem lowerImproperNodeOnce_spec {t : CartesianTree} {q : Slot} {n : CartesianNode}
    {l r : BinaryTree CartesianNode} (hn : subtree t.root q = .node n l r)
    (hchild : ¬ (l = .nil ∧ r = .nil)) :
    (∃ a al ar, l = .node a al ar ∧ topKey CartesianNode.count r ≤ a.count ∧
      t.lowerImproperNodeOnce q =
        .ok (t.write q (.node a al (.node n ar r)), q ++ [.right])) ∨
    (∃ a al ar, r = .node a al ar ∧ topKey CartesianNode.count l ≤ a.count ∧
      t.lowerImproperNodeOnce q =
        .ok (t.write q (.node a (.node n l al) ar), q ++ [.left])) := by
  unfold lowerImproperNodeOnce
  rw [hn]
  cases l with
  | nil =>
    cases r with
    | nil => exact absurd ⟨rfl, rfl⟩ hchild
    | node b bl br => exact Or.inr ⟨b, bl, br, rfl, Nat.zero_le _, rfl⟩
  | node a al ar =>
    cases r with
    | nil => exact Or.inl ⟨a, al, ar, rfl, Nat.zero_le _, rfl⟩
    | node b bl br =>
      by_cases hab : a.count ≤ b.count
      · right
        exact ⟨b, bl, br, rfl, hab, by simp [hab, rotateRightChild, bind, Except.bind]⟩
      · left
        exact ⟨a, al, ar, rfl, by simp only [topKey_node]; omega,
          by simp [hab, rotateLeftChild, bind, Except.bind]⟩

/-- `MaintainHeapPropertyForZeroNode`: the node ends up as a leaf, and unlinking that leaf leaves
    a heap over the blocks of its two subtrees. -/
theorem maintainZero_spec {n : CartesianNode} (fuel : Nat) :
    ∀ (t : CartesianTree) (q : Slot) (l r : BinaryTree CartesianNode),
      subtree t.root q = .node n l r → l.numNodes + r.numNodes < fuel →
      HeapOrdered CartesianNode.count l → HeapOrdered CartesianNode.count r →
      ∃ s d, maintainHeapPropertyForZeroNode fuel t q = .ok (t.write q s, q ++ d) ∧
        Reaches s d ∧ subtree s d = .node n .nil .nil ∧
        inorder (graft s d .nil) = inorder l ++ inorder r ∧
        HeapOrdered CartesianNode.count (graft s d .nil) ∧
        topKey CartesianNode.count (graft s d .nil) ≤
          max (topKey CartesianNode.count l) (topKey CartesianNode.count r) := by
  induction fuel with
  | zero => intro t q l r _ hlt; omega
  | succ fuel ih =>
    intro t q l r hn hlt hhl hhr
    have hq := reaches_of_subtree hn
    -- a leaf is cut off; any other node is rotated down, to the side of the smaller child
    by_cases hleaf : l = .nil ∧ r = .nil
    · obtain ⟨rfl, rfl⟩ := hleaf
      refine ⟨.node n .nil .nil, [], ?_, by simp, by simp, by simp, by simp, by simp⟩
      unfold maintainHeapPropertyForZeroNode
      rw [hn, ← hn, write_subtree, List.append_nil]
      simp [hn]
    · have hunfold : maintainHeapPropertyForZeroNode (fuel + 1) t q =
          (t.lowerImproperNodeOnce q).bind fun x => maintainHeapPropertyForZeroNode fuel x.1 x.2 := by
        conv => lhs; unfold maintainHeapPropertyForZeroNode
        rw [hn]
        cases l <;> cases r <;> first | rfl | exact absurd ⟨rfl, rfl⟩ hleaf
      rcases lowerImproperNodeOnce_spec hn hleaf with ⟨a, al, ar, rfl, hle, hstep⟩ |
        ⟨a, al, ar, rfl, hle, hstep⟩
      · obtain ⟨hal, har, hhal, hhar⟩ := heapOrdered_node .. |>.mp hhl
        have hsub : subtree (t.write q (.node a al (.node n ar r))).root (q ++ [.right]) =
            .node n ar r := by rw [root_write, subtree_graft_append hq]; simp
        obtain ⟨s, d, hres, hd, hleaf', hin, hheap, htop⟩ := ih _ _ ar r hsub
          (by simp at hlt; omega) hhar hhr
        refine ⟨.node a al s, .right :: d, ?_, hd, hleaf', ?_, ?_, ?_⟩
        · rw [hunfold, hstep]
          simp only [Except.bind, hres, write_write_append hq]
          simp
        · simp [hin]
        · exact ⟨hal, by omega, hhal, hheap⟩
        · simp
      · obtain ⟨hal, har, hhal, hhar⟩ := heapOrdered_node .. |>.mp hhr
        have hsub : subtree (t.write q (.node a (.node n l al) ar)).root (q ++ [.left]) =
            .node n l al := by rw [root_write, subtree_graft_append hq]; simp
        obtain ⟨s, d, hres, hd, hleaf', hin, hheap, htop⟩ := ih _ _ l al hsub
          (by simp at hlt; omega) hhl hhal
        refine ⟨.node a s ar, .left :: d, ?_, hd, hleaf', ?_, ?_, ?_⟩
        · rw [hunfold, hstep]
          simp only [Except.bind, hres, write_write_append hq]
          simp
        · simp [hin]
        · exact ⟨by omega, har, hheap, hhar⟩
        · simp

/-- `MaintainHeapPropertyForNonZeroNode`: a heap over the same inorder sequence. -/
theorem maintainNonZero_spec {n : CartesianNode} (fuel : Nat) :
    ∀ (t : CartesianTree) (q : Slot) (l r : BinaryTree CartesianNode),
      subtree t.root q = .node n l r → l.numNodes + r.numNodes < fuel →
      HeapOrdered CartesianNode.count l → HeapOrdered CartesianNode.count r →
      ∃ s, maintainHeapPropertyForNonZeroNode fuel t q = .ok (t.write q s) ∧
        inorder s = inorder l ++ n :: inorder r ∧ HeapOrdered CartesianNode.count s ∧
        topKey CartesianNode.count s ≤
          max n.count (max (topKey CartesianNode.count l) (topKey CartesianNode.count r)) := by
  induction fuel with
  | zero => intro t q l r _ hlt; omega
  | succ fuel ih =>
    intro t q l r hn hlt hhl hhr
    have hq := reaches_of_subtree hn
    unfold maintainHeapPropertyForNonZeroNode
    rw [hn]
    by_cases hproper : isProperNode n l r = true
    · simp only [if_pos hproper]
      refine ⟨.node n l r, by rw [← hn, write_subtree], by simp, ?_, by simp⟩
      simp only [isProperNode, countOrZero_eq_topKey, Bool.and_eq_true, decide_eq_true_eq]
        at hproper
      exact ⟨hproper.1, hproper.2, hhl, hhr⟩
    · simp only [if_neg hproper]
      have hchild : ¬ (l = .nil ∧ r = .nil) := by
        rintro ⟨rfl, rfl⟩
        exact hproper (by simp [isProperNode, countOrZero])
      simp only [isProperNode, countOrZero_eq_topKey, Bool.and_eq_true, decide_eq_true_eq]
        at hproper
      rcases lowerImproperNodeOnce_spec hn hchild with ⟨a, al, ar, rfl, hle, hstep⟩ |
        ⟨a, al, ar, rfl, hle, hstep⟩
      · obtain ⟨hal, har, hhal, hhar⟩ := heapOrdered_node .. |>.mp hhl
        have hsub : subtree (t.write q (.node a al (.node n ar r))).root (q ++ [.right]) =
            .node n ar r := by rw [root_write, subtree_graft_append hq]; simp
        obtain ⟨s, hres, hin, hheap, htop⟩ := ih _ _ ar r hsub (by simp at hlt; omega) hhar hhr
        simp only [topKey_node] at hproper
        refine ⟨.node a al s, ?_, by simp [hin], ⟨hal, ?_, hhal, hheap⟩, by simp⟩
        · rw [hstep]
          simp only [Except.bind, bind, hres, write_write_append hq]
          simp
        · omega
      · obtain ⟨hal, har, hhal, hhar⟩ := heapOrdered_node .. |>.mp hhr
        have hsub : subtree (t.write q (.node a (.node n l al) ar)).root (q ++ [.left]) =
            .node n l al := by rw [root_write, subtree_graft_append hq]; simp
        obtain ⟨s, hres, hin, hheap, htop⟩ := ih _ _ l al hsub (by simp at hlt; omega) hhl hhal
        simp only [topKey_node] at hproper
        refine ⟨.node a s ar, ?_, by simp [hin], ⟨?_, har, hheap, hhar⟩, by simp⟩
        · rw [hstep]
          simp only [Except.bind, bind, hres, write_write_append hq]
          simp
        · omega

/-- `RemoveZeroNode`: the node in `q` goes, its two subtrees become one heap, and the `abort()` is
    not reached. -/
theorem removeZeroNode_spec {t : CartesianTree} {q : Slot} {n : CartesianNode}
    {l r : BinaryTree CartesianNode} (hn : subtree t.root q = .node n l r)
    (hhl : HeapOrdered CartesianNode.count l) (hhr : HeapOrdered CartesianNode.count r) :
    ∃ u, t.removeZeroNode q = .ok ((t.write q u).deallocate n.addr) ∧
      inorder u = inorder l ++ inorder r ∧ HeapOrdered CartesianNode.count u ∧
      topKey CartesianNode.count u ≤
        max (topKey CartesianNode.count l) (topKey CartesianNode.count r) := by
  have hq := reaches_of_subtree hn
  have hfuel : l.numNodes + r.numNodes < t.root.numNodes := by
    have := numNodes_subtree_le t.root q
    rw [hn] at this
    simp at this
    omega
  obtain ⟨s, d, hres, hd, hleaf, hin, hheap, htop⟩ :=
    maintainZero_spec t.root.numNodes t q l r hn hfuel hhl hhr
  refine ⟨graft s d .nil, ?_, hin, hheap, htop⟩
  unfold removeZeroNode
  rw [hres]
  have hsub : subtree (t.write q s).root (q ++ d) = .node n .nil .nil := by
    rw [root_write, subtree_graft_append hq, hleaf]
  simp only [bind, Except.bind, hsub]
  rw [← write_write_append hq]
  simp [deallocate, write]

/-! ## Taking from the front of a block -/

/-- The nodes before and behind a node in the order of the tree lie before and behind it in the
    heap. -/
theorem Sound.around_split {t : CartesianTree} (h : t.Sound) {n : CartesianNode}
    {x y : List CartesianNode} (hold : inorder t.root = x ++ n :: y) :
    (∀ b ∈ x, b.index + b.count < n.index) ∧ (∀ b ∈ y, n.index + n.count < b.index) := by
  have hc := h.coalesced
  rw [hold] at hc
  exact (coalesced_middle.mp hc).2

/-- Removing the block `n`. -/
theorem freeUnits_remove {t t' : CartesianTree} (h : t.Sound) {n : CartesianNode}
    {x y : List CartesianNode} (hold : inorder t.root = x ++ n :: y)
    (hnew : inorder t'.root = x ++ y) :
    t'.freeUnits = t.freeUnits \ Set.Ico n.index (n.index + n.count) := by
  obtain ⟨hbelow, habove⟩ := h.around_split hold
  unfold freeUnits
  rw [hold, hnew, span_append, span_append, span_cons]
  apply Set.Subset.antisymm
  · rintro u (⟨b, hb, hbu⟩ | ⟨b, hb, hbu⟩)
    · refine ⟨Or.inl ⟨b, hb, hbu⟩, fun hu => ?_⟩
      have := hbelow b hb; have := hu.1; omega
    · refine ⟨Or.inr (Or.inr ⟨b, hb, hbu⟩), fun hu => ?_⟩
      have := habove b hb; have := hu.2; omega
  · rintro u ⟨hu | hu | hu, hnot⟩
    · exact Or.inl hu
    · exact absurd hu hnot
    · exact Or.inr hu

/-- Cutting `num` units off the front of the block `n`. -/
theorem freeUnits_cut {t t' : CartesianTree} (h : t.Sound) {n m : CartesianNode} {num : Nat}
    {x y : List CartesianNode} (hold : inorder t.root = x ++ n :: y)
    (hnew : inorder t'.root = x ++ m :: y) (hindex : m.index = n.index + num)
    (hcount : m.count + num = n.count) :
    t'.freeUnits = t.freeUnits \ Set.Ico n.index (n.index + num) := by
  obtain ⟨hbelow, habove⟩ := h.around_split hold
  unfold freeUnits
  rw [hold, hnew, span_append, span_append, span_cons, span_cons]
  apply Set.Subset.antisymm
  · rintro u (⟨b, hb, hbu⟩ | hu | ⟨b, hb, hbu⟩)
    · refine ⟨Or.inl ⟨b, hb, hbu⟩, fun hu => ?_⟩
      have := hbelow b hb; have := hu.1; omega
    · have h1 := hu.1; have h2 := hu.2
      exact ⟨Or.inr (Or.inl ⟨by omega, by omega⟩), fun hu' => by have := hu'.2; omega⟩
    · refine ⟨Or.inr (Or.inr ⟨b, hb, hbu⟩), fun hu => ?_⟩
      have := habove b hb; have := hu.2; omega
  · rintro u ⟨hu | hu | hu, hnot⟩
    · exact Or.inl hu
    · refine Or.inr (Or.inl ⟨?_, ?_⟩)
      · by_contra hlt
        exact hnot ⟨hu.1, by omega⟩
      · have := hu.2; omega
    · exact Or.inr (Or.inr hu)

/-- After the node in `q` was removed, with its address freed, from a tree that differs from `t`
    in nothing but the fields of that node. -/
theorem Inv.remove {t t' : CartesianTree} (h : t.Inv) {q : Slot} {n : CartesianNode}
    {l r u : BinaryTree CartesianNode} (hn : subtree t.root q = .node n l r)
    (hroot : t'.root = graft t.root q u) (hin : inorder u = inorder l ++ inorder r)
    (hheap : HeapOrdered CartesianNode.count u)
    (htop : topKey CartesianNode.count u ≤
      max (topKey CartesianNode.count l) (topKey CartesianNode.count r))
    (htotal : t'.totalCount + n.count = t.totalCount)
    (hhead : t'.nodeAllocator.head = n.addr :: t.nodeAllocator.head)
    (hcurr : t'.nodeAllocator.currAddr = t.nodeAllocator.currAddr) :
    t'.Inv ∧ t'.freeUnits = t.freeUnits \ Set.Ico n.index (n.index + n.count) ∧ PoolStep t t' := by
  have hq := reaches_of_subtree hn
  have hold := inorder_at hn
  have hnew : inorder t'.root =
      (before t.root q ++ inorder l) ++ (inorder r ++ after t.root q) := by
    rw [hroot, inorder_graft hq, hin]; simp
  have hpool : PoolStep t t' := by
    refine Or.inl ⟨[n.addr], ?_, ?_⟩
    · rw [List.singleton_append, ← hhead, ← hcurr]
    · rw [liveSlots, liveSlots, hold, hnew, List.perm_iff_count]
      intro a
      simp only [List.map_append, List.map_cons, List.count_append, List.count_cons,
        List.count_nil]
      omega
  refine ⟨⟨h.sound.remove hold hnew htotal (h.sound.pool.step hpool), ?_⟩,
    freeUnits_remove h.sound hold hnew, hpool⟩
  · rw [hroot]
    have hheapq := h.heap.subtree q
    rw [hn, heapOrdered_node] at hheapq
    refine h.heap.graft hheap ?_
    rw [hn, topKey_node]
    omega

/-- The state `takeFront` repairs: the node in `q` lost `num` units, and so did the total. -/
theorem takeFront_eq {t : CartesianTree} (h : t.Sound) {q : Slot} {n : CartesianNode}
    {l r : BinaryTree CartesianNode} (hn : subtree t.root q = .node n l r) {num : Nat} (f : Bool)
    (hle : num ≤ n.count) :
    ∃ u : CartesianTree,
      t.takeFront q num f = (if n.count - num = 0 then u.removeZeroNode q
        else u.lowerNonZeroNode q).bind (fun t' => .ok (t', n.index)) ∧
      u.root = graft t.root q
        (.node { n with index := n.index + num, count := n.count - num } l r) ∧
      u.totalCount = t.totalCount - num ∧ u.nodeAllocator = t.nodeAllocator ∧
      u.regionCalls = t.regionCalls ++ if f && decide (0 < n.count - num) then
        [.initFreeRegion (n.index + num) (n.count - num)] else [] := by
  have hnin := mem_of_subtree hn
  have hnb := h.bound n hnin
  have htot := h.count_le_total hnin
  have hadd : Words.add 32 n.index num = n.index + num := Words.add_eq (by omega)
  have hsub : Words.sub 32 n.count num = n.count - num := Words.sub_eq hle (by omega)
  have hdec : Words.sub 32 t.totalCount num = t.totalCount - num :=
    Words.sub_eq (by omega) h.totalCount_lt
  refine ⟨{ (t.write q (.node { n with index := n.index + num, count := n.count - num } l r)
    ).refreshIf (f && decide (0 < n.count - num)) (n.index + num) (n.count - num) with
    totalCount := t.totalCount - num }, ?_, by simp, rfl, by simp, by simp⟩
  unfold takeFront
  rw [hn]
  simp only [hadd, hsub, updateNode_eq hn, bind, Except.bind, decTotalCount, totalCount_refreshIf,
    totalCount_write, if_neg (show ¬ t.totalCount < num by omega), hdec]
  split <;> rfl

/-- **The tail of the take operations.**  It never faults, returns the node's index, and removes
    exactly the `num` units from there on. -/
theorem takeFront_spec {t : CartesianTree} (h : t.Inv) {q : Slot} {n : CartesianNode}
    {l r : BinaryTree CartesianNode} (hn : subtree t.root q = .node n l r) {num : Nat} (f : Bool)
    (hnum : 0 < num) (hle : num ≤ n.count) :
    ∃ t', t.takeFront q num f = .ok (t', n.index) ∧ t'.Inv ∧
      t'.freeUnits = t.freeUnits \ Set.Ico n.index (n.index + num) ∧ Recorded f t t' ∧
      PoolStep t t' := by
  have hq := reaches_of_subtree hn
  have hnb := h.sound.bound n (mem_of_subtree hn)
  have htot := h.sound.count_le_total (mem_of_subtree hn)
  have hold := inorder_at hn
  obtain ⟨hbelow, habove⟩ := h.sound.around_split hold
  have hheapq := h.heap.subtree q
  rw [hn, heapOrdered_node] at hheapq
  obtain ⟨hln, hrn, hhl, hhr⟩ := hheapq
  obtain ⟨u, htake, huroot, hutotal, hualloc, hucalls⟩ := takeFront_eq h.sound hn f hle
  have hu : subtree u.root q =
      .node { n with index := n.index + num, count := n.count - num } l r := by
    rw [huroot, subtree_graft hq]
  rw [htake]
  by_cases hzero : n.count - num = 0
  · -- the whole block was taken: the node goes
    rw [if_pos hzero]
    obtain ⟨s, hres, hin, hheap, htop⟩ := removeZeroNode_spec hu hhl hhr
    have hroot' : ((u.write q s).deallocate n.addr).root = graft t.root q s := by
      simp [huroot, hq]
    obtain ⟨hinv, hunits, hpool⟩ := h.remove hn hroot' hin hheap htop (by simp; omega)
      (by simp [hualloc]) (by simp [hualloc])
    rw [hres]
    refine ⟨_, rfl, hinv, ?_, ⟨[], ?_, by simp, fun _ m hm => Or.inr ⟨rfl, m, ?_, rfl, rfl⟩⟩, hpool⟩
    · rw [hunits, show n.count = num by omega]
    · simp [hucalls, show ¬ 0 < n.count - num by omega]
    · have hm' : m ∈ inorder (graft t.root q s) := by rw [← hroot']; exact hm
      rw [inorder_graft hq, hin] at hm'
      rw [hold]
      simp only [List.mem_append, List.mem_cons] at hm' ⊢
      tauto
  · -- part of the block is left: the node stays and sinks
    rw [if_neg hzero]
    have hfuel : l.numNodes + r.numNodes < u.root.numNodes := by
      have := numNodes_subtree_le u.root q
      rw [hu] at this
      simp at this
      omega
    obtain ⟨s, hres, hin, hheap, htop⟩ := maintainNonZero_spec u.root.numNodes u q l r hu hfuel
      hhl hhr
    unfold lowerNonZeroNode
    rw [hres]
    have hnew : inorder (u.write q s).root = before t.root q ++ inorder l ++
        { n with index := n.index + num, count := n.count - num } ::
          (inorder r ++ after t.root q) := by
      rw [root_write, huroot, graft_graft hq, inorder_graft hq, hin]; simp
    have hcut : ∀ b ∈ before t.root q ++ inorder l, b.index + b.count < n.index + num := by
      intro b hb
      have := hbelow b hb; omega
    have hcut' : ∀ b ∈ inorder r ++ after t.root q,
        n.index + num + (n.count - num) < b.index := by
      intro b hb
      have := habove b hb; omega
    have hold' : inorder t.root =
        before t.root q ++ inorder l ++ [n] ++ (inorder r ++ after t.root q) := by
      rw [hold]; simp
    have hpool : PoolStep t (u.write q s) :=
      (PoolStep.refl t).trans_same (by rw [liveSlots, liveSlots, hnew, hold]; simp)
        (by simp [hualloc])
    refine ⟨_, rfl, ⟨h.sound.replace hold' hnew hcut hcut' (by simp only; omega)
      (by simp only; omega) ?_ (h.sound.pool.step hpool), ?_⟩, freeUnits_cut h.sound hold hnew rfl
      (by simp only; omega), Recorded.replace hold' hnew hcut hcut'
      (by rw [regionCalls_write, hucalls]) ?_ ?_, hpool⟩
    · simp; omega
    · rw [root_write, huroot, graft_graft hq]
      refine h.heap.graft hheap ?_
      rw [hn, topKey_node]
      simp only at htop
      omega
    · intro c hc
      cases f with
      | false => simp at hc
      | true => simp at hc; rw [hc.2]; simp [RegionCall.Inside]; omega
    · intro hf
      simp [hf, lastInit, show 0 < n.count - num by omega]

/-! ## Picking the node to take from -/

/-- The slot holds a node with at least `num` units. -/
def FitsAt (t : CartesianTree) (num : Nat) (q : Slot) : Prop :=
  ∃ n l r, subtree t.root q = .node n l r ∧ num ≤ n.count

/-- The nodes below the slots of a work list; both searches take one node off it at a time. -/
def pending (t : CartesianTree) (slots : List Slot) : Nat :=
  (slots.map fun q => (subtree t.root q).numNodes).sum

/-- What is left to be visited: the nodes of all subtrees on the stack. -/
@[simp] theorem pending_nil (t : CartesianTree) : t.pending [] = 0 := rfl
@[simp] theorem pending_cons (t : CartesianTree) (q : Slot) (slots : List Slot) :
    t.pending (q :: slots) = (subtree t.root q).numNodes + t.pending slots := by
  simp [pending]
@[simp] theorem pending_append (t : CartesianTree) (slots slots' : List Slot) :
    t.pending (slots ++ slots') = t.pending slots + t.pending slots' := by
  simp [pending]

/-- The children of a node are found one step below its slot. -/
theorem subtree_child {t : CartesianTree} {q : Slot} {n : CartesianNode}
    {l r : BinaryTree CartesianNode} (hn : subtree t.root q = .node n l r) :
    subtree t.root (q ++ [.left]) = l ∧ subtree t.root (q ++ [.right]) = r := by
  rw [subtree_append, subtree_append, hn]; simp

/-- The children of a node that are there are nodes, and the nodes below them are the nodes below
    it. -/
theorem childSlots_spec {t : CartesianTree} {q : Slot} {n : CartesianNode}
    {l r : BinaryTree CartesianNode} (hn : subtree t.root q = .node n l r) :
    t.pending (childSlots q l r) = l.numNodes + r.numNodes ∧
      ∀ p ∈ childSlots q l r, subtree t.root p ≠ .nil := by
  obtain ⟨hl, hr⟩ := subtree_child hn
  unfold childSlots
  refine ⟨?_, fun p hp => ?_⟩
  · by_cases h1 : r = .nil <;> by_cases h2 : l = .nil <;> simp [h1, h2, hl, hr]
    omega
  · rcases List.mem_append.mp hp with hp | hp
    · by_cases h1 : r = .nil
      · rw [if_neg (not_not.mpr h1)] at hp
        exact absurd hp List.not_mem_nil
      · rw [if_pos h1, List.mem_singleton] at hp
        rw [hp, hr]
        exact h1
    · by_cases h2 : l = .nil
      · rw [if_neg (not_not.mpr h2)] at hp
        exact absurd hp List.not_mem_nil
      · rw [if_pos h2, List.mem_singleton] at hp
        rw [hp, hl]
        exact h2

/-- The loop of `TakeUnitsImpl` ends at a node that is large enough. -/
theorem lastFitting_spec {t : CartesianTree} (num fuel : Nat) :
    ∀ queue nodeSlot, t.pending queue ≤ fuel → (∀ q ∈ queue, subtree t.root q ≠ .nil) →
      FitsAt t num nodeSlot →
      ∃ q, t.lastFitting num fuel queue nodeSlot = .ok q ∧ FitsAt t num q := by
  -- the fuel is the number of nodes that are left in the queue
  induction fuel with
  | zero =>
    intro queue nodeSlot hfuel hqueue hfit
    cases queue with
    | nil => exact ⟨nodeSlot, rfl, hfit⟩
    | cons q queue =>
      have hne := hqueue q (List.mem_cons_self ..)
      rw [pending_cons] at hfuel
      cases hq : subtree t.root q with
      | nil => exact absurd hq hne
      | node n l r => rw [hq] at hfuel; simp at hfuel
  | succ fuel ih =>
    intro queue nodeSlot hfuel hqueue hfit
    cases queue with
    | nil => exact ⟨nodeSlot, rfl, hfit⟩
    | cons q queue =>
      have hne := hqueue q (List.mem_cons_self ..)
      cases hq : subtree t.root q with
      | nil => exact absurd hq hne
      | node n l r =>
        unfold lastFitting
        rw [hq]
        -- the first node that is too small ends the search
        by_cases hlt : n.count < num
        · exact ⟨nodeSlot, by simp [hlt], hfit⟩
        · simp only [if_neg hlt]
          obtain ⟨hchild, hnodes⟩ := childSlots_spec hq
          refine ih _ _ ?_ ?_ ⟨n, l, r, hq, by omega⟩
          · rw [pending_cons, hq] at hfuel
            simp only [BinaryTree.numNodes] at hfuel
            rw [pending_append]; omega
          · intro p hp
            rcases List.mem_append.mp hp with hp | hp
            · exact hqueue p (List.mem_cons_of_mem _ hp)
            · exact hnodes p hp

/-- The test of a subtree is the condition on its slot. -/
theorem fits_iff {t : CartesianTree} {num : Nat} {q : Slot} :
    fits num (subtree t.root q) = true ↔ FitsAt t num q := by
  unfold FitsAt fits
  cases subtree t.root q <;> simp

/-- The loop of `FindBestFitLowAddrPtr` ends at a node that is large enough, unless it started
    with nothing on its stack and no best node. -/
theorem bestFitLoop_spec {t : CartesianTree} {num : Nat} (fuel : Nat) :
    ∀ stack best, t.pending stack ≤ fuel → (∀ q ∈ stack, FitsAt t num q) →
      (∀ b, best = some b → FitsAt t num b) →
      ∃ best', t.bestFitLoop num fuel stack best = .ok best' ∧
        (∀ b, best' = some b → FitsAt t num b) ∧ (best' = none → best = none ∧ stack = []) := by
  induction fuel with
  | zero =>
    intro stack best hfuel hstack hbest
    cases stack with
    | nil => exact ⟨best, rfl, hbest, fun h => ⟨h, rfl⟩⟩
    | cons q stack =>
      obtain ⟨n, l, r, hq, -⟩ := hstack q (List.mem_cons_self ..)
      rw [pending_cons, hq] at hfuel
      simp at hfuel
  | succ fuel ih =>
    intro stack best hfuel hstack hbest
    cases stack with
    | nil => exact ⟨best, rfl, hbest, fun h => ⟨h, rfl⟩⟩
    | cons q stack =>
      obtain ⟨n, l, r, hq, hle⟩ := hstack q (List.mem_cons_self ..)
      have hstack' : ∀ p ∈ stack, FitsAt t num p := fun p hp =>
        hstack p (List.mem_cons_of_mem _ hp)
      obtain ⟨hl, hr⟩ := subtree_child hq
      rw [pending_cons, hq] at hfuel
      simp only [BinaryTree.numNodes] at hfuel
      -- whichever children are pushed, they fit, and together they weigh less than the node
      have hpush : ∀ (dl dr : Bool),
          let slots := (if dl && fits num l then [q ++ [.left]] else []) ++
            (if dr && fits num r then [q ++ [.right]] else []) ++ stack
          t.pending slots ≤ fuel ∧ ∀ p ∈ slots, FitsAt t num p := by
        intro dl dr
        refine ⟨?_, fun p hp => ?_⟩
        · by_cases h1 : (dl && fits num l) = true <;> by_cases h2 : (dr && fits num r) = true <;>
            simp [h1, h2, hl, hr] <;> omega
        · simp only [List.mem_append] at hp
          rcases hp with (hp | hp) | hp
          · by_cases h1 : (dl && fits num l) = true
            · rw [if_pos h1, List.mem_singleton] at hp
              rw [hp, ← fits_iff, hl]
              simp only [Bool.and_eq_true] at h1
              exact h1.2
            · rw [if_neg h1] at hp; simp at hp
          · by_cases h2 : (dr && fits num r) = true
            · rw [if_pos h2, List.mem_singleton] at hp
              rw [hp, ← fits_iff, hr]
              simp only [Bool.and_eq_true] at h2
              exact h2.2
            · rw [if_neg h2] at hp; simp at hp
          · exact hstack' p hp
      have hbestNode : ∃ bn, t.bestNodeOf best n = .ok bn := by
        cases best with
        | none => exact ⟨n, rfl⟩
        | some b =>
          obtain ⟨bn, bl, br, hb, -⟩ := hbest b rfl
          exact ⟨bn, by simp [bestNodeOf, hb]⟩
      obtain ⟨bn, hbn⟩ := hbestNode
      unfold bestFitLoop
      rw [hq]
      simp only [if_neg (show ¬ n.count < num by omega), hbn, bind, Except.bind]
      -- the best slot after this round is the old one or `q`, and there is one
      have hnext : ∀ (better : Prop) [Decidable better], (best = none → better) →
          ∃ b, (if better then some q else best) = some b ∧ FitsAt t num b := by
        intro better _ hnone
        by_cases hb : better
        · exact ⟨q, by simp [hb], n, l, r, hq, hle⟩
        · cases hbest' : best with
          | none => exact absurd (hnone hbest') hb
          | some b => exact ⟨b, by simp [hb], hbest b hbest'⟩
      obtain ⟨b, hb, hbfit⟩ := hnext (best = none ∨ n.count < bn.count ∨
        (n.count = bn.count ∧ n.index < bn.index)) (fun h => Or.inl h)
      rw [hb]
      have hdone : ∀ slots, t.pending slots ≤ fuel → (∀ p ∈ slots, FitsAt t num p) →
          ∃ best', t.bestFitLoop num fuel slots (some b) = .ok best' ∧
            (∀ b, best' = some b → FitsAt t num b) ∧
            (best' = none → best = none ∧ q :: stack = []) := by
        intro slots hw hs
        obtain ⟨best', hres, hfit, hnone⟩ := ih slots (some b) hw hs (by
          intro b' hb'
          rw [← Option.some.inj hb']; exact hbfit)
        exact ⟨best', hres, hfit, fun h => absurd (hnone h).1 (by simp)⟩
      generalize hnode : (if best = none ∨ n.count < bn.count ∨
        (n.count = bn.count ∧ n.index < bn.index) then n else bn) = bestNode
      by_cases hexact : bestNode.count = num
      · have := hpush true false
        simp only [Bool.true_and, Bool.false_and, Bool.false_eq_true, if_false,
          List.append_nil] at this
        rw [if_pos hexact]
        exact hdone _ this.1 this.2
      · have := hpush true true
        simp only [Bool.true_and] at this
        rw [if_neg hexact]
        exact hdone _ this.1 this.2

/-- `FindBestFitLowAddrPtr` from the root finds a node exactly when the root is large enough. -/
theorem findBestFitLowAddrPtr_spec {t : CartesianTree} (h : t.Inv) (num : Nat) :
    (t.findBestFitLowAddrPtr (some []) num none = .ok none ∧
      ∀ n ∈ inorder t.root, n.count < num) ∨
    ∃ q, t.findBestFitLowAddrPtr (some []) num none = .ok (some q) ∧ FitsAt t num q := by
  unfold findBestFitLowAddrPtr
  by_cases hfit : fits num (subtree t.root []) = true
  · right
    simp only [if_pos hfit]
    obtain ⟨best, hres, hbest, hnone⟩ := bestFitLoop_spec (t := t) t.root.numNodes [[]] none
      (by simp) (by simpa using fits_iff.mp hfit) (by simp)
    cases best with
    | none => exact absurd (hnone rfl).2 (by simp)
    | some q => exact ⟨q, hres, hbest q rfl⟩
  · left
    simp only [if_neg hfit]
    refine ⟨by cases t.root.numNodes <;> rfl, fun n hn => ?_⟩
    have hle := h.heap.le_topKey n hn
    rw [subtree_root] at hfit
    cases hroot : t.root with
    | nil => rw [hroot] at hn; simp at hn
    | node m l r =>
      rw [hroot] at hfit hle
      simp only [fits, decide_eq_true_eq, topKey_node] at hfit hle
      omega

/-! ## The take operations -/

/-- What a take operation guarantees: no fault, and either no block has `num` units and the tree
    is as it was, or exactly `num` free units from the returned index on are gone. -/
def TakeOk (t : CartesianTree) (num : Nat) (refreshRegionInfo : Bool)
    (result : Except Fault (CartesianTree × Option Nat)) : Prop :=
  (result = .ok (t, none) ∧ ∀ n ∈ inorder t.root, n.count < num) ∨
  ∃ t' idx, result = .ok (t', some idx) ∧ t'.Inv ∧
    Set.Ico idx (idx + num) ⊆ t.freeUnits ∧
    t'.freeUnits = t.freeUnits \ Set.Ico idx (idx + num) ∧ Recorded refreshRegionInfo t t' ∧
    (∃ n ∈ inorder t.root, num ≤ n.count) ∧ PoolStep t t'

/-- A node that fits is cut, and the operation does what it says. -/
theorem takeOk_of_fits {t : CartesianTree} (h : t.Inv) {num : Nat} (f : Bool) (hnum : 0 < num)
    {q : Slot} (hq : FitsAt t num q) :
    TakeOk t num f ((t.takeFront q num f).bind fun x => .ok (x.1, some x.2)) := by
  obtain ⟨n, l, r, hn, hle⟩ := hq
  obtain ⟨t', hres, hinv, hunits, hrec, hpool⟩ := takeFront_spec h hn f hnum hle
  right
  refine ⟨t', n.index, by rw [hres]; rfl, hinv, fun u hu => ?_, hunits, hrec,
    ⟨n, mem_of_subtree hn, hle⟩, hpool⟩
  exact mem_freeUnits (mem_of_subtree hn) ⟨hu.1, by have := hu.2; omega⟩

/-- **`TakeUnits`.**  It fails and changes nothing, or takes units that were free and keeps the
    invariant, and what it records and allocates is that of one step. -/
theorem takeUnits_spec {t : CartesianTree} (h : t.Inv) (num : Nat) (f : Bool) (hnum : 0 < num) :
    TakeOk t num f (t.takeUnits num f) := by
  unfold takeUnits
  by_cases hroot : t.root = .nil
  · rw [if_pos (Or.inl hroot)]
    exact Or.inl ⟨rfl, by simp [hroot]⟩
  · rw [if_neg (by simp [hroot]; omega)]
    unfold takeUnitsImpl
    cases hn : t.root with
    | nil => exact absurd hn hroot
    | node n l r =>
      by_cases hlt : n.count < num
      · simp only [if_pos hlt]
        refine Or.inl ⟨rfl, fun m hm => ?_⟩
        have := h.heap.le_topKey m hm
        rw [hn, topKey_node] at this
        omega
      · simp only [if_neg hlt]
        have hsub : subtree t.root [] = .node n l r := by rw [subtree_root, hn]
        obtain ⟨hchild, hnodes⟩ := childSlots_spec hsub
        obtain ⟨q, hres, hfit⟩ := lastFitting_spec num (BinaryTree.node n l r).numNodes
          (childSlots [] l r) [] (by rw [hchild, BinaryTree.numNodes]; omega) hnodes
          ⟨n, l, r, hsub, by omega⟩
        have := takeOk_of_fits h f hnum hfit
        rw [hres]
        exact this

/-- **`TakeUnitsLowAddr`.**  The same holds of it, whichever node its search has found. -/
theorem takeUnitsLowAddr_spec {t : CartesianTree} (h : t.Inv) (num : Nat) (f : Bool)
    (hnum : 0 < num) : TakeOk t num f (t.takeUnitsLowAddr num f) := by
  unfold takeUnitsLowAddr
  by_cases hroot : t.root = .nil
  · rw [if_pos (Or.inl hroot)]
    exact Or.inl ⟨rfl, by simp [hroot]⟩
  · rw [if_neg (by simp [hroot]; omega)]
    unfold takeUnitsLowAddrImpl
    rcases findBestFitLowAddrPtr_spec h num with ⟨hres, hsmall⟩ | ⟨q, hres, hfit⟩
    · rw [hres]
      exact Or.inl ⟨rfl, hsmall⟩
    · have := takeOk_of_fits h f hnum hfit
      rw [hres]
      exact this

/-- **`AllocateLowestAddressFromNode`** of a live node.  It takes from the low end of this node and
    no other, if the node is large enough. -/
theorem allocateLowestAddressFromNode_spec {t : CartesianTree} (h : t.Inv) {q : Slot}
    {n : CartesianNode} {l r : BinaryTree CartesianNode} (hn : subtree t.root q = .node n l r)
    (count : Nat) (hcount : 0 < count) :
    (t.allocateLowestAddressFromNode q count = .ok (t, none) ∧ n.count < count) ∨
    ∃ t', t.allocateLowestAddressFromNode q count = .ok (t', some n.index) ∧ t'.Inv ∧
      Set.Ico n.index (n.index + count) ⊆ t.freeUnits ∧
      t'.freeUnits = t.freeUnits \ Set.Ico n.index (n.index + count) ∧ Recorded false t t' ∧
      PoolStep t t' := by
  unfold allocateLowestAddressFromNode
  rw [hn]
  by_cases hlt : n.count < count
  · exact Or.inl ⟨by simp [hlt], hlt⟩
  · right
    obtain ⟨t', hres, hinv, hunits, hstep⟩ := takeFront_spec h hn false hcount (by omega)
    refine ⟨t', by simp [hlt, hres, bind, Except.bind], hinv, fun u hu => ?_, hunits, hstep⟩
    exact mem_freeUnits (mem_of_subtree hn) ⟨hu.1, by have := hu.2; omega⟩

/-! ## Release and clear -/

/-- **`ReleaseRootNode`** of a non-empty tree: the root's units are gone, and they are the units
    handed back to the system. -/
theorem releaseRootNode_spec {t : CartesianTree} (h : t.Inv) {n : CartesianNode}
    {l r : BinaryTree CartesianNode} (hn : t.root = .node n l r) (f : Bool) :
    ∃ t', t.releaseRootNode = .ok t' ∧ t'.Inv ∧
      t'.freeUnits = t.freeUnits \ Set.Ico n.index (n.index + n.count) ∧ Recorded f t t' ∧
      PoolStep t t' ∧ inorder t'.root = inorder l ++ inorder r := by
  have hsub : subtree t.root [] = .node n l r := by rw [subtree_root, hn]
  have htot := h.sound.count_le_total (mem_of_subtree hsub)
  have hheap := h.heap
  rw [hn, heapOrdered_node] at hheap
  obtain ⟨hln, hrn, hhl, hhr⟩ := hheap
  have hdec : Words.sub 32 t.totalCount n.count = t.totalCount - n.count :=
    Words.sub_eq htot h.sound.totalCount_lt
  unfold releaseRootNode
  rw [hn]
  simp only [removeNode, root_call, hsub, decTotalCount, totalCount_call,
    if_neg (show ¬ t.totalCount < n.count by omega), hdec, bind, Except.bind]
  let z : CartesianTree := { t.call (.releaseUnits n.index n.count) with
    totalCount := t.totalCount - n.count, root := .node { n with count := 0 } l r }
  have hz : subtree z.root [] = .node { n with count := 0 } l r := subtree_root _
  obtain ⟨u, hres, hin, hheap', htop⟩ := removeZeroNode_spec hz hhl hhr
  have hroot' : ((z.write [] u).deallocate n.addr).root = graft t.root [] u := by simp
  obtain ⟨hinv, hunits, hpool⟩ := h.remove hsub hroot' hin hheap' htop
    (by simp only [totalCount_deallocate, totalCount_write, z]; omega) rfl rfl
  refine ⟨(z.write [] u).deallocate n.addr, ?_, hinv, hunits, ⟨[.releaseUnits n.index n.count],
    rfl, ?_, fun _ m hm => Or.inr ⟨rfl, m, ?_, rfl, rfl⟩⟩, hpool, ?_⟩
  · rw [← hres]
    congr 1
    simp [write, z, call]
  · intro c hc
    rw [List.mem_singleton.mp hc]
    have hpos := h.sound.pos n (mem_of_subtree hsub)
    exact mem_freeUnits (mem_of_subtree hsub) ⟨Nat.le_refl _, by omega⟩
  · have hm' : m ∈ inorder u := by simpa using hm
    rw [hn, inorder_node]
    rw [hin] at hm'
    simp only [List.mem_append, List.mem_cons] at hm' ⊢
    tauto
  · rw [hroot', graft_root, hin]

/-- The loop of `ClearTree`: every node still in the work list is freed, and nothing else
    changes. -/
theorem clearNodes_spec (fuel : Nat) :
    ∀ queue t, (queue.map BinaryTree.numNodes).sum ≤ fuel → (∀ s ∈ queue, s ≠ .nil) →
      ∃ freed, clearNodes fuel queue t = .ok { t with
          nodeAllocator := { t.nodeAllocator with head := freed ++ t.nodeAllocator.head } } ∧
        freed.Perm ((queue.flatMap inorder).map CartesianNode.addr) := by
  -- the fuel is the number of nodes in the queue
  induction fuel with
  | zero =>
    intro queue t hfuel hqueue
    cases queue with
    | nil => exact ⟨[], rfl, by simp⟩
    | cons s queue =>
      cases s with
      | nil => exact absurd rfl (hqueue _ (List.mem_cons_self ..))
      | node n l r => simp at hfuel
  | succ fuel ih =>
    intro queue t hfuel hqueue
    cases queue with
    | nil => exact ⟨[], rfl, by simp⟩
    | cons s queue =>
      cases s with
      | nil => exact absurd rfl (hqueue _ (List.mem_cons_self ..))
      | node n l r =>
        simp only [List.map_cons, List.sum_cons, BinaryTree.numNodes] at hfuel
        obtain ⟨freed, hres, hperm⟩ := ih
          (queue ++ (if r ≠ .nil then [r] else []) ++ (if l ≠ .nil then [l] else []))
          (t.deallocate n.addr) (by
            by_cases h1 : r = .nil <;> by_cases h2 : l = .nil <;> simp [h1, h2] <;> omega) (by
            intro s hs
            by_cases h1 : r = .nil <;> by_cases h2 : l = .nil <;>
              simp only [ne_eq, h1, h2, not_true_eq_false, not_false_eq_true, if_true, if_false,
                List.append_nil, List.mem_append, List.mem_singleton] at hs
            · exact hqueue s (List.mem_cons_of_mem _ hs)
            · rcases hs with hs | rfl
              · exact hqueue s (List.mem_cons_of_mem _ hs)
              · exact h2
            · rcases hs with hs | rfl
              · exact hqueue s (List.mem_cons_of_mem _ hs)
              · exact h1
            · rcases hs with (hs | rfl) | rfl
              · exact hqueue s (List.mem_cons_of_mem _ hs)
              · exact h1
              · exact h2)
        have hkid : ∀ s : BinaryTree CartesianNode,
            ((if s ≠ .nil then [s] else []).flatMap inorder) = inorder s := by
          intro s
          cases s <;> simp
        refine ⟨freed ++ [n.addr], ?_, ?_⟩
        · unfold clearNodes
          rw [hres, List.append_assoc, List.singleton_append]
          rfl
        · rw [List.perm_iff_count]
          intro a
          rw [List.count_append, hperm.count_eq]
          simp only [List.flatMap_append, hkid, List.flatMap_cons, inorder_node, List.map_append,
            List.map_cons, List.count_append, List.count_cons, List.count_nil]
          omega

/-- **`ClearTree`**: an empty tree, with every slot of the pool back on the free list. -/
theorem clearTree_spec {t : CartesianTree} (h : t.Inv) (f : Bool) :
    ∃ t', t.clearTree = .ok t' ∧ t'.Inv ∧ t'.freeUnits = ∅ ∧ Recorded f t t' ∧
      PoolStep t t' := by
  obtain ⟨freed, hres, hperm⟩ := clearNodes_spec t.root.numNodes
    (if t.root ≠ .nil then [t.root] else []) t
    (by by_cases hroot : t.root = .nil <;> simp [hroot])
    (by
      intro s hs
      by_cases hroot : t.root = .nil
      · simp [hroot] at hs
      · simp only [ne_eq, hroot, not_false_eq_true, if_true, List.mem_singleton] at hs
        rw [hs]; exact hroot)
  have hqueue : ((if t.root ≠ .nil then [t.root] else []).flatMap inorder) = inorder t.root := by
    cases t.root <;> simp
  rw [hqueue] at hperm
  let nodeAllocator := { t.nodeAllocator with head := freed ++ t.nodeAllocator.head }
  let t' : CartesianTree :=
    { t with nodeAllocator := nodeAllocator, root := .nil, totalCount := 0 }
  have hpool : PoolStep t t' := Or.inl ⟨freed, rfl, by
    rw [show t'.liveSlots = [] from rfl, List.append_nil]
    exact hperm.symm⟩
  unfold clearTree
  rw [hres]
  exact ⟨t', rfl, ⟨⟨List.Pairwise.nil, by simp [t'], by simp [t'], rfl, h.sound.pool.step hpool⟩,
    trivial⟩, by simp [freeUnits, t'], ⟨[], by simp [t'], by simp, by simp [t']⟩, hpool⟩

end CartesianTree

end CangjieRuntime.Heap
