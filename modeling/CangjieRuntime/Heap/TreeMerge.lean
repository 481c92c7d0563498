/-
  `MergeInsert` on a tree that satisfies the invariant.

  The descent keeps two bounds: every block before the current slot ends before the inserted block
  starts, and every block after it starts after the inserted block ends.  So wherever it stops,
  the decision made there (a leaf, a neighbour to extend, an overlap) is right for the whole tree.
  `Merged` says what the descent leaves behind: the tree with one subtree rewritten, whose root may
  be larger than the node above it.  The second loop then carries that subtree up by rotations,
  each of which keeps the inorder sequence (`mergeRebalance_spec`).
-/
import CangjieRuntime.Heap.TreeInvariant

set_option linter.unusedVariables false

namespace CangjieRuntime.Heap

open SlotTree Blocks

namespace CartesianTree

/-! ## The two search loops -/

/-- The left spine of `s`, walked by `nearestRight`: either some block of `s` starts below `e`, or
    the walk ends at an empty slot with every block above `e`, or at the block that starts at `e`,
    which is the first one of `s`. -/
theorem nearestRight_spec {e : Nat} {s : BinaryTree CartesianNode} (par q : Slot)
    (hc : Coalesced CartesianNode.index CartesianNode.count (inorder s)) :
    (nearestRight e s par q = none ∧ ∃ b ∈ inorder s, b.index < e) ∨
    ∃ par' d, nearestRight e s par q = some (par', q ++ d) ∧ Reaches s d ∧ before s d = [] ∧
      ((subtree s d = .nil ∧ ∀ b ∈ inorder s, e < b.index) ∨
        ∃ near nr, subtree s d = .node near .nil nr ∧ near.index = e) ∧
      ((d = [] ∧ par' = par) ∨
        ∃ d' a l r, d = d' ++ [.left] ∧ par' = q ++ d' ∧ subtree s d' = .node a l r) := by
  induction s generalizing par q with
  | nil =>
    right
    exact ⟨par, [], by simp [nearestRight], by simp, by simp, Or.inl ⟨by simp, by simp⟩,
      Or.inl ⟨rfl, rfl⟩⟩
  | node a l r ihl ihr =>
    rw [inorder_node] at hc
    obtain ⟨hlr, hla, har⟩ := coalesced_middle.mp hc
    have hl : Coalesced CartesianNode.index CartesianNode.count (inorder l) :=
      (coalesced_append.mp hlr).1
    unfold nearestRight
    by_cases hae : a.index = e
    · rw [if_pos hae]
      by_cases hln : l = .nil
      · right
        refine ⟨par, [], by simp [hln], by simp, by simp, Or.inr ⟨a, r, by simp [hln], hae⟩,
          Or.inl ⟨rfl, rfl⟩⟩
      · left
        refine ⟨by simp [hln], ?_⟩
        -- a left child of the block that starts at `e` lies inside the inserted block
        cases l with
        | nil => exact absurd rfl hln
        | node b bl br =>
          have hb := hla b (by simp)
          exact ⟨b, by simp, by omega⟩
    · rw [if_neg hae]
      by_cases hlt : a.index < e
      · rw [if_pos hlt]
        exact Or.inl ⟨rfl, a, by simp, hlt⟩
      · rw [if_neg hlt]
        rcases ihl q (q ++ [.left]) hl with ⟨hres, b, hb, hbe⟩ | ⟨par', d, hres, hd, hbef, hend, hpar⟩
        · exact Or.inl ⟨hres, b, by simp [hb], hbe⟩
        · right
          refine ⟨par', .left :: d, ?_, hd, hbef, ?_, Or.inr ?_⟩
          · simpa using hres
          · rcases hend with ⟨hnil, habove⟩ | ⟨near, nr, hnear, hidx⟩
            · refine Or.inl ⟨hnil, fun b hb => ?_⟩
              rw [inorder_node] at hb
              rcases List.mem_append.mp hb with hb | hb
              · exact habove b hb
              · rcases List.mem_cons.mp hb with rfl | hb
                · omega
                · have := har b hb; omega
            · exact Or.inr ⟨near, nr, hnear, hidx⟩
          · rcases hpar with ⟨rfl, rfl⟩ | ⟨d', a', l', r', rfl, rfl, hsub⟩
            · exact ⟨[], a, l, r, rfl, by simp, by simp⟩
            · exact ⟨.left :: d', a', l', r', rfl, by simp, hsub⟩

/-- The right spine of `s`, walked by `nearestLeft`: the mirror image of `nearestRight_spec`. -/
theorem nearestLeft_spec {e : Nat} {s : BinaryTree CartesianNode} (par q : Slot)
    (hc : Coalesced CartesianNode.index CartesianNode.count (inorder s))
    (hb : ∀ b ∈ inorder s, b.index + b.count < 2 ^ 32) :
    (nearestLeft e s par q = none ∧ ∃ b ∈ inorder s, e < b.index + b.count) ∨
    ∃ par' d, nearestLeft e s par q = some (par', q ++ d) ∧ Reaches s d ∧ after s d = [] ∧
      ((subtree s d = .nil ∧ ∀ b ∈ inorder s, b.index + b.count < e) ∨
        ∃ near nl, subtree s d = .node near nl .nil ∧ near.index + near.count = e) ∧
      ((d = [] ∧ par' = par) ∨
        ∃ d' a l r, d = d' ++ [.right] ∧ par' = q ++ d' ∧ subtree s d' = .node a l r) := by
  induction s generalizing par q with
  | nil =>
    right
    exact ⟨par, [], by simp [nearestLeft], by simp, by simp, Or.inl ⟨by simp, by simp⟩,
      Or.inl ⟨rfl, rfl⟩⟩
  | node a l r ihl ihr =>
    rw [inorder_node] at hc
    obtain ⟨hlr, hla, har⟩ := coalesced_middle.mp hc
    have hr : Coalesced CartesianNode.index CartesianNode.count (inorder r) :=
      (coalesced_append.mp hlr).2.1
    have haw : Words.add 32 a.index a.count = a.index + a.count :=
      Words.add_eq (hb a (by simp))
    unfold nearestLeft
    rw [haw]
    -- the node that ends at `e`, one that ends behind it, and one that ends before it
    by_cases hae : a.index + a.count = e
    · rw [if_pos hae]
      by_cases hrn : r = .nil
      · right
        refine ⟨par, [], by simp [hrn], by simp, by simp, Or.inr ⟨a, l, by simp [hrn], hae⟩,
          Or.inl ⟨rfl, rfl⟩⟩
      · left
        refine ⟨by simp [hrn], ?_⟩
        cases r with
        | nil => exact absurd rfl hrn
        | node b bl br =>
          have hb := har b (by simp)
          exact ⟨b, by simp, by omega⟩
    · rw [if_neg hae]
      by_cases hlt : e < a.index + a.count
      · rw [if_pos hlt]
        exact Or.inl ⟨rfl, a, by simp, hlt⟩
      · rw [if_neg hlt]
        rcases ihr q (q ++ [.right]) hr (fun b hbr => hb b (by simp [hbr])) with
          ⟨hres, b, hb', hbe⟩ | ⟨par', d, hres, hd, haft, hend, hpar⟩
        · exact Or.inl ⟨hres, b, by simp [hb'], hbe⟩
        · right
          refine ⟨par', .right :: d, ?_, hd, haft, ?_, Or.inr ?_⟩
          · simpa using hres
          · rcases hend with ⟨hnil, hbelow⟩ | ⟨near, nl, hnear, hidx⟩
            · refine Or.inl ⟨hnil, fun b hb' => ?_⟩
              rw [inorder_node] at hb'
              rcases List.mem_append.mp hb' with hb' | hb'
              · have := hla b hb'; omega
              · rcases List.mem_cons.mp hb' with rfl | hb'
                · omega
                · exact hbelow b hb'
            · exact Or.inr ⟨near, nl, hnear, hidx⟩
          · rcases hpar with ⟨rfl, rfl⟩ | ⟨d', a', l', r', rfl, rfl, hsub⟩
            · exact ⟨[], a, l, r, rfl, by simp, by simp⟩
            · exact ⟨.right :: d', a', l', r', rfl, by simp, hsub⟩

/-! ## What a merge leaves behind -/

/-- The block `[idx, idx + num)` went into `t` below the slot `p`: the subtree there was rewritten
    to a heap whose children are no larger than the old subtree's root. -/
structure Merged (t : CartesianTree) (p : Slot) (idx num : Nat) (refreshRegionInfo : Bool)
    (t' : CartesianTree) : Prop where
  sound : t'.Sound
  root : ∃ m l r, t'.root = graft t.root p (.node m l r) ∧
    HeapOrdered CartesianNode.count (.node m l r) ∧
    topKey CartesianNode.count l ≤ topKey CartesianNode.count (subtree t.root p) ∧
    topKey CartesianNode.count r ≤ topKey CartesianNode.count (subtree t.root p)
  disjoint : Disjoint t.freeUnits (Set.Ico idx (idx + num))
  units : t'.freeUnits = t.freeUnits ∪ Set.Ico idx (idx + num)
  recorded : Recorded refreshRegionInfo t t'
  pool : PoolStep t t'

/-- **One merge, on the inorder sequence.**  The blocks `mid` and the inserted block became the
    one block `m`; the blocks around them stayed. -/
theorem Merged.of_replace {t t' : CartesianTree} (h : t.Sound) (m : CartesianNode)
    (mid : List CartesianNode) (cs : List RegionCall) {p : Slot} {idx num : Nat} {f : Bool}
    {l r : BinaryTree CartesianNode} {x y : List CartesianNode}
    (hroot : t'.root = graft t.root p (.node m l r))
    (hheap : HeapOrdered CartesianNode.count (.node m l r))
    (hl : topKey CartesianNode.count l ≤ topKey CartesianNode.count (subtree t.root p))
    (hr : topKey CartesianNode.count r ≤ topKey CartesianNode.count (subtree t.root p))
    (hold : inorder t.root = x ++ mid ++ y) (hnew : inorder t'.root = x ++ m :: y)
    (hx : ∀ b ∈ x, b.index + b.count < m.index) (hy : ∀ b ∈ y, m.index + m.count < b.index)
    (hcover : Set.Ico m.index (m.index + m.count) =
      span CartesianNode.index CartesianNode.count mid ∪ Set.Ico idx (idx + num))
    (hdisj : Disjoint (span CartesianNode.index CartesianNode.count mid)
      (Set.Ico idx (idx + num)))
    (hcount : m.count = Blocks.total CartesianNode.count mid + num)
    (hpos : 0 < m.count) (hbound : m.index + m.count < 2 ^ 32)
    (htotal : t'.totalCount = Words.add 32 t.totalCount num) (hpool : PoolStep t t')
    (hcs : t'.regionCalls = t.regionCalls ++ cs)
    (hin : ∀ c ∈ cs, RegionCall.Inside m.index (m.index + m.count) c)
    (hlast : f = true → lastInit cs m.index = some m.count) : Merged t p idx num f t' := by
  have hsub : (x ++ y).Sublist (inorder t.root) := by
    rw [hold, List.append_assoc]
    exact List.Sublist.append (List.Sublist.refl x) (List.sublist_append_right mid y)
  -- the new total still fits: the new blocks are disjoint and below 2 ^ 32
  have hfits : t.totalCount + num < 2 ^ 32 := by
    have hc := coalesced_middle.mpr ⟨h.coalesced.sublist hsub, hx, hy⟩
    have hle := hc.add_total_le 0 (2 ^ 32 - 1) (by omega) (fun _ _ => Nat.zero_le _) (by
      intro b hb
      rcases List.mem_append.mp hb with hb | hb
      · have := h.bound b (hsub.subset (List.mem_append_left _ hb)); omega
      · rcases List.mem_cons.mp hb with rfl | hb
        · omega
        · have := h.bound b (hsub.subset (List.mem_append_right _ hb)); omega)
    have htot := h.total
    rw [hold] at htot
    simp only [total_append, total_cons] at htot hle
    omega
  have hins : Set.Ico idx (idx + num) ⊆ Set.Ico m.index (m.index + m.count) := by
    rw [hcover]; exact Set.subset_union_right
  refine ⟨h.replace hold hnew hx hy hpos hbound ?_ (h.pool.step hpool),
    ⟨m, l, r, hroot, hheap, hl, hr⟩, ?_, ?_, Recorded.replace hold hnew hx hy hcs hin hlast, hpool⟩
  · rw [htotal, Words.add_eq hfits]; omega
  · rw [Set.disjoint_left]
    intro u hu hu'
    have hum := hins hu'
    rw [freeUnits, hold, span_append, span_append] at hu
    rcases hu with (⟨b, hb, hbu⟩ | hu) | ⟨b, hb, hbu⟩
    · have := hx b hb; have := hum.1; omega
    · exact Set.disjoint_left.mp hdisj hu hu'
    · have := hy b hb; have := hum.2; omega
  · rw [freeUnits, freeUnits, hold, hnew, span_append, span_cons, hcover, span_append, span_append]
    ext u
    simp only [Set.mem_union]
    tauto

/-- Region calls that are made only on request. -/
theorem inside_refresh {f : Bool} {low high : Nat} {cs : List RegionCall}
    (h : ∀ c ∈ cs, RegionCall.Inside low high c) :
    ∀ c ∈ if f then cs else [], RegionCall.Inside low high c := by
  cases f with
  | false => simp
  | true => exact h

/-- A new leaf in the empty slot `p`. -/
theorem createNode_merged {t : CartesianTree} (h : t.Sound) {p : Slot} (hp : Reaches t.root p)
    (hnil : subtree t.root p = .nil) {idx num : Nat} (f : Bool) (hnum : 0 < num)
    (hbound : idx + num < 2 ^ 32)
    (hbefore : ∀ b ∈ before t.root p, b.index + b.count < idx)
    (hafter : ∀ b ∈ after t.root p, idx + num < b.index) :
    Merged t p idx num f ((t.createNode p idx num f).incTotalCount num) := by
  have hold : inorder t.root = before t.root p ++ [] ++ after t.root p := by
    have := inorder_split hp
    rwa [hnil] at this
  refine Merged.of_replace h ⟨t.allocate.1, idx, num⟩ []
    (if f then [.initFreeRegion idx num] else []) (l := .nil) (r := .nil)
    ?_ (by simp) (by simp) (by simp) hold ?_ hbefore hafter (by simp) (by simp) (by simp) hnum
    hbound ?_ ?_ ?_ ?_ ?_
  · simp [createNode, CartesianTree.allocate]
  · simp [createNode, CartesianTree.allocate, inorder_graft hp]
  · simp [createNode, CartesianTree.allocate]
  · refine Or.inr ⟨by simp [createNode, CartesianTree.allocate], ?_⟩
    rw [liveSlots, root_incTotalCount, createNode]
    simp only [root_write, root_refreshIf]
    rw [show t.allocate.2.root = t.root from rfl, liveSlots, inorder_graft hp, inorder_split hp,
      hnil]
    simp only [inorder_node, inorder_nil, List.nil_append, List.map_append, List.map_cons,
      List.append_assoc, List.append_nil, List.cons_append]
    exact List.perm_middle
  · simp [createNode, CartesianTree.allocate]
  · exact inside_refresh (by simp [RegionCall.Inside, hnum])
  · intro hf
    simp [hf, lastInit]

/-! ## Extending a node -/

/-- A node's address occurs once in its own subtree. -/
theorem addr_ne_of_mem {t : CartesianTree} (h : t.PoolSound) {p : Slot} {n m : CartesianNode}
    {l r : BinaryTree CartesianNode} (hn : subtree t.root p = .node n l r)
    (hm : m ∈ inorder l ∨ m ∈ inorder r) : m.addr ≠ n.addr := by
  have hnd := h.nodup
  unfold poolSlots at hnd
  rw [inorder_split (reaches_of_subtree hn), hn] at hnd
  simp only [inorder_node, List.map_append, List.map_cons, List.append_assoc] at hnd
  have hnd := (List.nodup_append.mp hnd).2.1
  simp only [List.cons_append] at hnd
  intro heq
  rcases hm with hm | hm
  · have := (List.nodup_append.mp hnd).2.2 m.addr (List.mem_map_of_mem hm) n.addr (by simp)
    exact this heq
  · have := (List.nodup_cons.mp (List.nodup_append.mp hnd).2.1).1
    exact this (by rw [← heq]; simp only [List.mem_append, List.mem_map]; exact Or.inl ⟨m, hm, rfl⟩)

/-- **A node takes the block in.**  The node `n` in `p` becomes `m`, which covers `n`, the inserted
    block, and the neighbours `lt` on its left and `rt` on its right that touch it; their nodes are
    freed. -/
theorem Merged.extend {t t' : CartesianTree} (h : t.Inv) {p : Slot} {n : CartesianNode}
    {l r : BinaryTree CartesianNode} (hn : subtree t.root p = .node n l r)
    (m : CartesianNode) (l' r' : BinaryTree CartesianNode) (lt rt : List CartesianNode)
    (cs : List RegionCall) {idx num : Nat} {f : Bool}
    (hl : inorder l = inorder l' ++ lt) (hr : inorder r = rt ++ inorder r')
    (hhl : HeapOrdered CartesianNode.count l') (hhr : HeapOrdered CartesianNode.count r')
    (htl : topKey CartesianNode.count l' ≤ topKey CartesianNode.count l)
    (htr : topKey CartesianNode.count r' ≤ topKey CartesianNode.count r)
    (hroot : t'.root = graft t.root p (.node m l' r')) (haddr : m.addr = n.addr)
    (hx : ∀ b ∈ before t.root p ++ inorder l', b.index + b.count < m.index)
    (hy : ∀ b ∈ inorder r' ++ after t.root p, m.index + m.count < b.index)
    (hcover : Set.Ico m.index (m.index + m.count) =
      span CartesianNode.index CartesianNode.count (lt ++ n :: rt) ∪ Set.Ico idx (idx + num))
    (hdisj : Disjoint (span CartesianNode.index CartesianNode.count (lt ++ n :: rt))
      (Set.Ico idx (idx + num)))
    (hcount : m.count = Blocks.total CartesianNode.count (lt ++ n :: rt) + num) (hnum : 0 < num)
    (hbound : m.index + m.count < 2 ^ 32)
    (htotal : t'.totalCount = Words.add 32 t.totalCount num)
    (hhead : t'.nodeAllocator.head =
      (lt ++ rt).map CartesianNode.addr ++ t.nodeAllocator.head)
    (hcurr : t'.nodeAllocator.currAddr = t.nodeAllocator.currAddr)
    (hcs : t'.regionCalls = t.regionCalls ++ cs)
    (hin : ∀ c ∈ cs, RegionCall.Inside m.index (m.index + m.count) c)
    (hlast : f = true → lastInit cs m.index = some m.count) : Merged t p idx num f t' := by
  have hp := reaches_of_subtree hn
  have hheap := h.heap.subtree p
  rw [hn, heapOrdered_node] at hheap
  obtain ⟨hln, hrn, -, -⟩ := hheap
  have hnm : n.count ≤ m.count := by
    rw [hcount, total_append, total_cons]; omega
  have hold : inorder t.root =
      before t.root p ++ inorder l' ++ (lt ++ n :: rt) ++ (inorder r' ++ after t.root p) := by
    have := inorder_split hp
    rw [hn, inorder_node, hl, hr] at this
    rw [this]; simp
  have hnew : inorder t'.root =
      before t.root p ++ inorder l' ++ m :: (inorder r' ++ after t.root p) := by
    rw [hroot, inorder_graft hp]; simp
  refine Merged.of_replace h.sound m (lt ++ n :: rt) cs hroot ?_ ?_ ?_ hold hnew hx hy hcover
    hdisj hcount (by omega) hbound htotal ?_ hcs hin hlast
  · exact ⟨by omega, by omega, hhl, hhr⟩
  · rw [hn]; exact Nat.le_trans htl hln
  · rw [hn]; exact Nat.le_trans htr hrn
  · refine Or.inl ⟨(lt ++ rt).map CartesianNode.addr, ?_, ?_⟩
    · rw [← hhead, ← hcurr]
    -- the neighbours that are freed stood on the two sides of `n`
    · rw [liveSlots, liveSlots, hold, hnew, List.perm_iff_count]
      intro a
      simp only [List.map_append, List.map_cons, haddr, List.count_append, List.count_cons]
      omega

/-- **No neighbour touches the block**: the node `n` only grows, at its end or at its start. -/
theorem Merged.grow {t t' : CartesianTree} (h : t.Inv) {p : Slot} {n : CartesianNode}
    {l r : BinaryTree CartesianNode} (hn : subtree t.root p = .node n l r) (start : Nat)
    {idx num : Nat} {f : Bool} (hside : (start = n.index ∧ n.index + n.count = idx) ∨
      (start = idx ∧ idx + num = n.index)) (hnum : 0 < num)
    (hbound : start + (n.count + num) < 2 ^ 32)
    (hx : ∀ b ∈ before t.root p ++ inorder l, b.index + b.count < start)
    (hy : ∀ b ∈ inorder r ++ after t.root p, start + (n.count + num) < b.index)
    (hroot : t'.root = graft t.root p (.node { n with index := start, count := n.count + num } l r))
    (htotal : t'.totalCount = Words.add 32 t.totalCount num)
    (hpool : t'.nodeAllocator = t.nodeAllocator)
    (hcs : t'.regionCalls =
      t.regionCalls ++ if f then [.initFreeRegion start (n.count + num)] else []) :
    Merged t p idx num f t' := by
  have hheap := h.heap.subtree p
  rw [hn, heapOrdered_node] at hheap
  obtain ⟨-, -, hhl, hhr⟩ := hheap
  refine Merged.extend h hn { n with index := start, count := n.count + num } l r [] [] _
    (by simp) (by simp) hhl hhr (Nat.le_refl _) (Nat.le_refl _) hroot rfl hx hy ?_ ?_ (by simp)
    hnum hbound htotal (by rw [hpool]; rfl) (by rw [hpool]) hcs (inside_refresh ?_) ?_
  · ext u
    simp only [List.nil_append, span_cons, span_nil, Set.union_empty, Set.mem_union, Set.mem_Ico]
    omega
  · simp only [List.nil_append, span_cons, span_nil, Set.union_empty, Set.disjoint_left,
      Set.mem_Ico]
    omega
  · simp [RegionCall.Inside, hnum]
  · intro hf
    simp [hf, lastInit]

/-- **The first block on the right touches the block**, and goes into `n` with it. -/
theorem Merged.absorbRight {t t' : CartesianTree} (h : t.Inv) {p d : Slot} {n near : CartesianNode}
    {l r nr : BinaryTree CartesianNode} (hn : subtree t.root p = .node n l r) (hd : Reaches r d)
    (hfirst : before r d = []) (hnear : subtree r d = .node near .nil nr) {num : Nat} {f : Bool}
    (hidx : near.index = n.index + n.count + num) (hnum : 0 < num)
    (hroot : t'.root =
      graft t.root p (.node { n with count := n.count + num + near.count } l (graft r d nr)))
    (htotal : t'.totalCount = Words.add 32 t.totalCount num)
    (hhead : t'.nodeAllocator.head = near.addr :: t.nodeAllocator.head)
    (hcurr : t'.nodeAllocator.currAddr = t.nodeAllocator.currAddr)
    (hcs : t'.regionCalls = t.regionCalls ++
      if f then [.initFreeRegion n.index (n.count + num),
        .initFreeRegion n.index (n.count + num + near.count)] else []) :
    Merged t p (n.index + n.count) num f t' := by
  obtain ⟨-, hcright, hbelow, -⟩ := h.sound.around hn
  have hheap := h.heap.subtree p
  rw [hn, heapOrdered_node] at hheap
  obtain ⟨-, -, hhl, hhr⟩ := hheap
  have hheapd := hhr.subtree d
  rw [hnear, heapOrdered_node] at hheapd
  obtain ⟨-, htop, -, hheapnr⟩ := hheapd
  have hsplit : inorder r = near :: (inorder nr ++ after r d) := by
    have := inorder_split hd
    rw [hnear, hfirst] at this
    simpa using this
  have hrest : inorder (graft r d nr) = inorder nr ++ after r d := by
    rw [inorder_graft hd, hfirst]; simp
  have hbound := h.sound.bound near (by
    rw [inorder_split (reaches_of_subtree hn), hn]
    simp [hsplit])
  refine Merged.extend h hn { n with count := n.count + num + near.count } l (graft r d nr) []
    [near] _ (by simp) (by rw [hsplit, hrest]; rfl) hhl (hhr.graft hheapnr ?_) (Nat.le_refl _)
    (topKey_graft_le ?_) hroot rfl hbelow ?_ ?_ ?_ ?_ hnum ?_ htotal hhead hcurr hcs
    (inside_refresh ?_) ?_
  · rwa [hnear]
  · rwa [hnear]
  · intro b hb
    rw [hrest, List.append_assoc] at hb
    rw [hsplit, List.cons_append, coalesced_cons] at hcright
    have := hcright.1 b (by simpa using hb)
    simp only
    omega
  · ext u
    simp
    omega
  · simp [Set.disjoint_left]
    omega
  · simp
    omega
  · simp only
    omega
  · simp [RegionCall.Inside]
    omega
  · intro hf
    simp [hf, lastInit]

/-- **The last block on the left touches the block**, and goes into `n` with it. -/
theorem Merged.absorbLeft {t t' : CartesianTree} (h : t.Inv) {p d : Slot} {n near : CartesianNode}
    {l r nl : BinaryTree CartesianNode} (hn : subtree t.root p = .node n l r) (hd : Reaches l d)
    (hlast : after l d = []) (hnear : subtree l d = .node near nl .nil) {startIdx num : Nat}
    {f : Bool} (hend : startIdx + num = n.index) (hidx : near.index + near.count = startIdx)
    (hnum : 0 < num)
    (hroot : t'.root = graft t.root p
      (.node { n with index := near.index, count := n.count + num + near.count } (graft l d nl) r))
    (htotal : t'.totalCount = Words.add 32 t.totalCount num)
    (hhead : t'.nodeAllocator.head = near.addr :: t.nodeAllocator.head)
    (hcurr : t'.nodeAllocator.currAddr = t.nodeAllocator.currAddr)
    (hcs : t'.regionCalls = t.regionCalls ++
      if f then [.initFreeRegion startIdx (n.count + num),
        .initFreeRegion near.index (n.count + num + near.count)] else []) :
    Merged t p startIdx num f t' := by
  have hbound := h.sound.bound n (mem_of_subtree hn)
  obtain ⟨hcleft, -, -, habove⟩ := h.sound.around hn
  have hheap := h.heap.subtree p
  rw [hn, heapOrdered_node] at hheap
  obtain ⟨-, -, hhl, hhr⟩ := hheap
  have hheapd := hhl.subtree d
  rw [hnear, heapOrdered_node] at hheapd
  obtain ⟨htop, -, hheapnl, -⟩ := hheapd
  have hsplit : inorder l = before l d ++ inorder nl ++ [near] := by
    have := inorder_split hd
    rw [hnear, hlast] at this
    simpa using this
  have hrest : inorder (graft l d nl) = before l d ++ inorder nl := by
    rw [inorder_graft hd, hlast]; simp
  have hpos := h.sound.pos near (by
    rw [inorder_split (reaches_of_subtree hn), hn]
    simp [hsplit])
  refine Merged.extend h hn { n with index := near.index, count := n.count + num + near.count }
    (graft l d nl) r [near] [] _ (by rw [hsplit, hrest]) (by simp) (hhl.graft hheapnl ?_) hhr
    (topKey_graft_le ?_) (Nat.le_refl _) hroot rfl ?_ ?_ ?_ ?_ ?_ hnum ?_ htotal hhead hcurr hcs
    (inside_refresh ?_) ?_
  · rwa [hnear]
  · rwa [hnear]
  · intro b hb
    rw [hrest, ← List.append_assoc] at hb
    rw [hsplit, ← List.append_assoc, coalesced_append] at hcleft
    exact hcleft.2.2 b (by simpa using hb) near (by simp)
  · intro b hb
    have := habove b hb
    simp only
    omega
  · ext u
    simp
    omega
  · simp [Set.disjoint_left]
    omega
  · simp
    omega
  · simp only
    omega
  · simp [RegionCall.Inside]
    omega
  · intro hf
    simp [hf, lastInit]

/-- The search compares the addresses of `n` and of the parent of the slot where it ended: they are
    equal only if it is the first slot.  So what is written is the slot where the search ended. -/
theorem write_nearest {t u : CartesianTree} (h : t.PoolSound) {p d par : Slot}
    {n m : CartesianNode} {l r c : BinaryTree CartesianNode}
    (hn : subtree t.root p = .node n l r) (hm : m.addr = n.addr)
    (hu : u.root = graft t.root p (.node m l r)) (s s' : Side)
    (hc : subtree t.root (p ++ [s]) = c) (b : BinaryTree CartesianNode)
    (hpar : (d = [] ∧ par = p) ∨
      ∃ d' a al ar, d = d' ++ [s'] ∧ par = p ++ [s] ++ d' ∧ subtree c d' = .node a al ar) :
    (if u.addrAt par = u.addrAt p then u.write (p ++ [s]) b else u.write (par ++ [s']) b) =
      u.write (p ++ [s] ++ d) b := by
  have hp := reaches_of_subtree hn
  have haddr : u.addrAt p = n.addr := by simp [addrAt, hu, hp, hm]
  rcases hpar with ⟨rfl, rfl⟩ | ⟨d', a, al, ar, rfl, rfl, hd'⟩
  · simp
  · have hchild : ∀ k : CartesianNode, subtree (.node k l r) [s] = c := by
      intro k
      rw [subtree_append, hn] at hc
      rw [← hc]
      cases s <;> simp
    have hpar : u.addrAt (p ++ [s] ++ d') = a.addr := by
      unfold addrAt
      rw [hu, List.append_assoc, subtree_graft_append hp, subtree_append, hchild, hd']
    have ha : a ∈ inorder l ∨ a ∈ inorder r := by
      have hac : a ∈ inorder c := mem_inorder_of_subtree (p := d') (by rw [hd']; simp)
      cases s with
      | left => exact Or.inl (by simpa [← hchild n] using hac)
      | right => exact Or.inr (by simpa [← hchild n] using hac)
    rw [hpar, haddr, if_neg (addr_ne_of_mem h hn ha)]
    simp

/-- `MergeToRight` from the node in `p`: an overlap, or the merge. -/
theorem mergeToRight_spec {t : CartesianTree} (h : t.Inv) {p : Slot} {n : CartesianNode}
    {l r : BinaryTree CartesianNode} (hn : subtree t.root p = .node n l r) {endIdx num : Nat}
    (f : Bool) (hend : n.index + n.count + num = endIdx) (hnum : 0 < num) (hlt : endIdx < 2 ^ 32)
    (hafter : ∀ b ∈ after t.root p, endIdx < b.index) :
    (t.mergeToRight p endIdx num f = .ok (t, .error) ∧
      ∃ b ∈ inorder t.root, n.index + n.count < b.index ∧ b.index < endIdx) ∨
    ∃ t', t.mergeToRight p endIdx num f = .ok (t', .success) ∧
      Merged t p (n.index + n.count) num f t' := by
  have hp := reaches_of_subtree hn
  have hin : ∀ b ∈ inorder r, b ∈ inorder t.root := by
    intro b hb
    rw [inorder_split hp, hn]
    simp [hb]
  obtain ⟨-, hcright, hbelow, habove⟩ := h.sound.around hn
  have hsubr : subtree t.root (p ++ [.right]) = r := by rw [subtree_append, hn]; simp
  unfold mergeToRight
  rw [hsubr]
  rcases nearestRight_spec p (p ++ [.right]) (coalesced_append.mp hcright).1 with
    ⟨hres, b, hb, hbe⟩ | ⟨par, d, hres, hd, hbef, hwalk, hpar⟩
  · left
    rw [hres]
    exact ⟨rfl, b, hin b hb, habove b (by simp [hb]), hbe⟩
  · right
    rw [hres]
    simp only [incCount_eq hn num f (by omega) (by omega), Except.bind, bind]
    -- extending the node leaves the slot found by the search alone
    have hsame : ∀ m : CartesianNode, subtree (graft t.root p (.node m l r))
        (p ++ [.right] ++ d) = subtree r d := by
      intro m
      rw [List.append_assoc, subtree_graft_append hp]; simp
    simp only [root_incTotalCount, root_refreshIf, root_write, hsame]
    rcases hwalk with ⟨hnil, hclear⟩ | ⟨near, nr, hnear, hidx⟩
    · rw [hnil]
      refine ⟨_, rfl, Merged.grow h hn n.index (Or.inl ⟨rfl, rfl⟩) hnum (by omega)
        hbelow ?_ (by simp) (by simp) (by simp) (by simp)⟩
      intro b hb
      rcases List.mem_append.mp hb with hb | hb
      · have := hclear b hb
        omega
      · have := hafter b hb
        omega
    · rw [hnear]
      have hbound := h.sound.bound near
        (hin near (mem_inorder_of_subtree (p := d) (by rw [hnear]; simp)))
      have hn1 : subtree (((t.write p (.node { n with count := n.count + num } l r)).refreshIf f
          n.index (n.count + num)).incTotalCount num).root p =
          .node { n with count := n.count + num } l r := by simp [hp]
      simp only [incCount_eq hn1 near.count f (by simp only; omega) (by simp only; omega)]
      rw [write_nearest h.sound.pool hn (m := { n with count := n.count + num + near.count }) rfl
        (by simp [hp]) .right .left hsubr nr hpar]
      refine ⟨_, rfl, Merged.absorbRight h hn hd hbef hnear (by omega) hnum ?_ (by simp) (by simp)
        (by simp) ?_⟩
      · simp [hp, graft_graft_append hp]
      · cases f <;> simp

/-- `MergeToLeft` from the node in `p`: an overlap, or the merge. -/
theorem mergeToLeft_spec {t : CartesianTree} (h : t.Inv) {p : Slot} {n : CartesianNode}
    {l r : BinaryTree CartesianNode} (hn : subtree t.root p = .node n l r) {startIdx num : Nat}
    (f : Bool) (hend : startIdx + num = n.index) (hnum : 0 < num)
    (hbefore : ∀ b ∈ before t.root p, b.index + b.count < startIdx) :
    (t.mergeToLeft p startIdx num f = .ok (t, .error) ∧
      ∃ b ∈ inorder t.root, startIdx < b.index + b.count ∧ b.index + b.count < n.index) ∨
    ∃ t', t.mergeToLeft p startIdx num f = .ok (t', .success) ∧ Merged t p startIdx num f t' := by
  have hp := reaches_of_subtree hn
  have hin : ∀ b ∈ inorder l, b ∈ inorder t.root := by
    intro b hb
    rw [inorder_split hp, hn]
    simp [hb]
  have hnbound := h.sound.bound n (mem_of_subtree hn)
  obtain ⟨hcleft, -, hbelow, habove⟩ := h.sound.around hn
  have hsubl : subtree t.root (p ++ [.left]) = l := by rw [subtree_append, hn]; simp
  unfold mergeToLeft
  rw [hsubl, hn]
  -- the walk to the nearest block on the left fails on an overlap, or ends at that block or nowhere
  rcases nearestLeft_spec p (p ++ [.left]) (coalesced_append.mp hcleft).2.1
      (fun b hb => h.sound.bound b (hin b hb)) with ⟨hres, b, hb, hbe⟩ |
    ⟨par, d, hres, hd, haft, hwalk, hpar⟩
  · left
    rw [hres]
    exact ⟨rfl, b, hin b hb, hbe, hbelow b (by simp [hb])⟩
  · right
    rw [hres]
    simp only [updateNode_eq hn, Except.bind, bind]
    have hsame : ∀ m : CartesianNode, subtree (graft t.root p (.node m l r))
        (p ++ [.left] ++ d) = subtree l d := by
      intro m
      rw [List.append_assoc, subtree_graft_append hp]; simp
    simp only [root_incTotalCount, root_refreshIf, root_write, hsame]
    have hsum : Words.add 32 n.count num = n.count + num := Words.add_eq (by omega)
    rcases hwalk with ⟨hnil, hclear⟩ | ⟨near, nl, hnear, hidx⟩
    · rw [hnil, hsum]
      refine ⟨_, rfl, Merged.grow h hn startIdx (Or.inr ⟨rfl, hend⟩) hnum (by omega)
        ?_ ?_ (by simp) (by simp) (by simp) (by simp [hnum])⟩
      · intro b hb
        rcases List.mem_append.mp hb with hb | hb
        · exact hbefore b hb
        · exact hclear b hb
      · intro b hb
        have := habove b hb
        omega
    · rw [hnear]
      have hpos := h.sound.pos near
        (hin near (mem_inorder_of_subtree (p := d) (by rw [hnear]; simp)))
      have hsum' : Words.add 32 (n.count + num) near.count = n.count + num + near.count :=
        Words.add_eq (by omega)
      dsimp only
      rw [hsum, write_nearest h.sound.pool hn
        (m := { n with index := startIdx, count := n.count + num }) rfl (by simp) .left .right hsubl
        nl hpar, hsum']
      have hn1 : subtree ((((t.write p (.node { n with index := startIdx, count := n.count + num }
          l r)).refreshIf (f && decide (0 < n.count + num)) startIdx (n.count + num)).incTotalCount
          num).write (p ++ [.left] ++ d) nl).root p =
          .node { n with index := startIdx, count := n.count + num } (graft l d nl) r := by
        simp [hp, graft_graft_append hp]
      simp only [updateNode_eq hn1]
      refine ⟨_, rfl, Merged.absorbLeft h hn hd haft hnear hend hidx hnum ?_ (by simp) (by simp)
        (by simp) ?_⟩
      · simp [hp, graft_graft_append hp]
      · cases f <;> simp [hnum]

/-! ## The descent -/

/-- The stack of the slots passed on the way down to a slot. -/
inductive Stacked : Slot → List Slot → Prop
  | root : Stacked [] []
  | child {q : Slot} {stack : List Slot} (s : Side) (h : Stacked q stack) :
      Stacked (q ++ [s]) (q :: stack)

/-- `q` is where a block `[idx, idx + num)` belongs: everything before the slot ends before it,
    everything after the slot starts after it, with no contact on either side. -/
structure Fits (t : CartesianTree) (q : Slot) (idx num : Nat) : Prop where
  reaches : Reaches t.root q
  before : ∀ b ∈ before t.root q, b.index + b.count < idx
  after : ∀ b ∈ after t.root q, idx + num < b.index

theorem Fits.left {t : CartesianTree} {q : Slot} {idx num : Nat} (h : Fits t q idx num)
    (hs : t.Sound) {n : CartesianNode} {l r : BinaryTree CartesianNode}
    (hn : subtree t.root q = .node n l r) (hlt : idx + num < n.index) :
    Fits t (q ++ [.left]) idx num where
  reaches := reaches_child hn .left
  before := by
    rw [before_append h.reaches, hn]
    simpa using h.before
  after := by
    rw [after_append h.reaches, hn]
    obtain ⟨-, -, -, habove⟩ := hs.around hn
    intro b hb
    simp only [after_left, after_root, List.nil_append, List.cons_append, List.mem_cons] at hb
    rcases hb with rfl | hb
    · exact hlt
    · have := habove b hb; omega

theorem Fits.right {t : CartesianTree} {q : Slot} {idx num : Nat} (h : Fits t q idx num)
    (hs : t.Sound) {n : CartesianNode} {l r : BinaryTree CartesianNode}
    (hn : subtree t.root q = .node n l r) (hlt : n.index + n.count < idx) :
    Fits t (q ++ [.right]) idx num where
  reaches := reaches_child hn .right
  before := by
    rw [before_append h.reaches, hn]
    obtain ⟨-, -, hbelow, -⟩ := hs.around hn
    intro b hb
    simp only [before_right, before_root, List.mem_append, List.mem_cons, List.not_mem_nil,
      or_false] at hb
    rcases hb with hb | hb | rfl
    · have := hbelow b (by simp [hb]); omega
    · have := hbelow b (by simp [hb]); omega
    · exact hlt
  after := by
    rw [after_append h.reaches, hn]
    simpa using h.after

/-- A block of the tree and the inserted block share a unit. -/
theorem not_disjoint_of_overlap {t : CartesianTree} {b : CartesianNode}
    (hb : b ∈ inorder t.root) {idx num : Nat} (hpos : 0 < b.count) (hnum : 0 < num)
    (h1 : b.index < idx + num) (h2 : idx < b.index + b.count) :
    ¬ Disjoint t.freeUnits (Set.Ico idx (idx + num)) := by
  intro hd
  have hu : max b.index idx ∈ t.freeUnits := ⟨b, hb, by omega, by omega⟩
  exact Set.disjoint_left.mp hd hu ⟨by omega, by omega⟩

/-- The first loop of `MergeInsertInternal`, from any slot the block fits in. -/
theorem mergeDescend_spec {t : CartesianTree} (h : t.Inv) {idx num : Nat} (f : Bool)
    (hnum : 0 < num) (hbound : idx + num < 2 ^ 32) (s : BinaryTree CartesianNode) :
    ∀ q stack, Stacked q stack → subtree t.root q = s → Fits t q idx num →
      (t.mergeDescend idx num f s q stack = .ok none ∧
        ¬ Disjoint t.freeUnits (Set.Ico idx (idx + num))) ∨
      ∃ t' q' stack', t.mergeDescend idx num f s q stack = .ok (some (t', stack')) ∧
        Stacked q' stack' ∧ Fits t q' idx num ∧ Merged t q' idx num f t' := by
  induction s with
  | nil =>
    intro q stack hq hnil hfit
    right
    exact ⟨_, q, stack, rfl, hq, hfit,
      createNode_merged h.sound hfit.reaches hnil f hnum hbound hfit.before hfit.after⟩
  | node n l r ihl ihr =>
    intro q stack hq hn hfit
    have hnin := mem_of_subtree hn
    have hnpos := h.sound.pos n hnin
    have hnb := h.sound.bound n hnin
    have hend : Words.add 32 idx num = idx + num := Words.add_eq hbound
    have hnend : Words.add 32 n.index n.count = n.index + n.count := Words.add_eq hnb
    unfold mergeDescend mergeAt
    rw [hend, hnend]
    -- the block touches the node on its right, on its left, or not at all
    by_cases hright : idx = n.index + n.count
    · subst hright
      rw [if_pos rfl]
      rcases mergeToRight_spec h hn f rfl hnum hbound hfit.after with
        ⟨hres, b, hb, hlow, hhigh⟩ | ⟨t', hres, hmerged⟩
      · left
        rw [hres]
        refine ⟨rfl, not_disjoint_of_overlap hb (h.sound.pos b hb) hnum hhigh ?_⟩
        have := h.sound.pos b hb; omega
      · right
        rw [hres]
        exact ⟨t', q, stack, rfl, hq, hfit, hmerged⟩
    · rw [if_neg hright]
      by_cases hleft : idx + num = n.index
      · rw [if_pos hleft]
        rcases mergeToLeft_spec h hn f hleft hnum hfit.before with
          ⟨hres, b, hb, hlow, hhigh⟩ | ⟨t', hres, hmerged⟩
        · left
          rw [hres]
          refine ⟨rfl, not_disjoint_of_overlap hb (h.sound.pos b hb) hnum ?_ hlow⟩
          have := h.sound.pos b hb; omega
        · right
          rw [hres]
          exact ⟨t', q, stack, rfl, hq, hfit, hmerged⟩
      · rw [if_neg hleft]
        simp only [Except.bind, bind]
        by_cases hgl : idx + num < n.index
        · rw [if_pos hgl]
          refine ihl _ _ (.child .left hq) ?_ (hfit.left h.sound hn hgl)
          rw [subtree_append, hn]; simp
        · rw [if_neg hgl]
          by_cases hgr : n.index + n.count < idx
          · rw [if_pos hgr]
            refine ihr _ _ (.child .right hq) ?_ (hfit.right h.sound hn hgr)
            rw [subtree_append, hn]; simp
          · rw [if_neg hgr]
            exact Or.inl ⟨rfl, not_disjoint_of_overlap hnin hnpos hnum (by omega) (by omega)⟩

/-! ## The way back up -/

/-- The second loop of `MergeInsertInternal`: the rewritten subtree may be larger than the node
    above it, and nothing else is out of order. -/
theorem mergeRebalance_spec {t : CartesianTree} (h : t.Inv) {idx num : Nat} {q : Slot}
    {stack : List Slot} (hstack : Stacked q stack) :
    ∀ t' m l r, Fits t q idx num → t'.root = graft t.root q (.node m l r) →
      HeapOrdered CartesianNode.count (.node m l r) →
      topKey CartesianNode.count l ≤ topKey CartesianNode.count (subtree t.root q) →
      topKey CartesianNode.count r ≤ topKey CartesianNode.count (subtree t.root q) →
      ∃ t'', mergeRebalance idx (idx + num) stack t' = .ok (t'', true) ∧ Rotated t' t'' ∧
        HeapOrdered CartesianNode.count t''.root := by
  induction hstack with
  | root =>
    intro t' m l r _ hroot hheap _ _
    exact ⟨t', rfl, Rotated.refl t', by rw [hroot, graft_root]; exact hheap⟩
  | @child q stack s hq ih =>
    intro t' m l r hfit hroot hheap hl hr
    obtain ⟨hml, hmr, hhl, hhr⟩ := heapOrdered_node .. |>.mp hheap
    obtain ⟨hqr, hsr⟩ := reaches_append.mp hfit.reaches
    -- the slot has a parent: the node `n` in `q`
    cases hn : subtree t.root q with
    | nil => rw [hn] at hsr; exact absurd hsr (by simp [Reaches])
    | node n nl nr =>
      have hheapq := h.heap.subtree q
      rw [hn, heapOrdered_node] at hheapq
      obtain ⟨hnl, hnr, hhnl, hhnr⟩ := hheapq
      have hfitq : Fits t q idx num := by
        refine ⟨hqr, fun b hb => hfit.before b ?_, fun b hb => hfit.after b ?_⟩
        · rw [before_append hqr]; simp [hb]
        · rw [after_append hqr]; simp [hb]
      rw [subtree_append, hn] at hl hr
      cases s with
      | left =>
        simp only [subtree_left, subtree_root] at hl hr
        have hlt : idx + num < n.index := by
          apply hfit.after n
          rw [after_append hqr, hn]; simp
        have hroot' : t'.root = graft t.root q (.node n (.node m l r) nr) := by
          rw [hroot, graft_append hqr, hn]; simp
        have hsub : subtree t'.root q = .node n (.node m l r) nr := by
          rw [hroot', subtree_graft hqr]
        unfold mergeRebalance
        rw [hsub]
        simp only [if_pos hlt]
        by_cases hmn : n.count < m.count
        · rw [if_pos hmn]
          simp only [rotateLeftChild, Except.bind, bind]
          have hrot : Rotated t' (t'.write q (.node m l (.node n r nr))) :=
            Rotated.write (by rw [hroot']; exact reaches_graft hqr _) (by rw [hsub]; simp)
          obtain ⟨t'', hres, hrot', hheap''⟩ := ih (t'.write q (.node m l (.node n r nr))) m l
            (.node n r nr) hfitq (by rw [root_write, hroot', graft_graft hqr])
            ⟨hml, by simp only [topKey_node]; omega, hhl, by omega, hnr, hhr, hhnr⟩
            (by rw [hn]; simp only [topKey_node]; omega) (by rw [hn]; simp)
          exact ⟨t'', hres, hrot.trans hrot', hheap''⟩
        · rw [if_neg hmn]
          refine ⟨t', rfl, Rotated.refl t', ?_⟩
          rw [hroot']
          exact h.heap.graft ⟨by simp only [topKey_node]; omega, hnr, hheap, hhnr⟩
            (by rw [hn]; simp)
      | right =>
        simp only [subtree_right, subtree_root] at hl hr
        have hlt : n.index + n.count < idx := by
          apply hfit.before n
          rw [before_append hqr, hn]; simp
        have hnend : Words.add 32 n.index n.count = n.index + n.count :=
          Words.add_eq (h.sound.bound n (mem_of_subtree hn))
        have hroot' : t'.root = graft t.root q (.node n nl (.node m l r)) := by
          rw [hroot, graft_append hqr, hn]; simp
        have hsub : subtree t'.root q = .node n nl (.node m l r) := by
          rw [hroot', subtree_graft hqr]
        unfold mergeRebalance
        rw [hsub]
        simp only [hnend, if_neg (show ¬ idx + num < n.index by omega), if_pos hlt]
        by_cases hmn : n.count < m.count
        · rw [if_pos hmn]
          simp only [rotateRightChild, Except.bind, bind]
          have hrot : Rotated t' (t'.write q (.node m (.node n nl l) r)) :=
            Rotated.write (by rw [hroot']; exact reaches_graft hqr _) (by rw [hsub]; simp)
          obtain ⟨t'', hres, hrot', hheap''⟩ := ih (t'.write q (.node m (.node n nl l) r)) m
            (.node n nl l) r hfitq (by rw [root_write, hroot', graft_graft hqr])
            ⟨by simp only [topKey_node]; omega, hmr, ⟨hnl, by omega, hhnl, hhl⟩, hhr⟩
            (by rw [hn]; simp) (by rw [hn]; simp only [topKey_node]; omega)
          exact ⟨t'', hres, hrot.trans hrot', hheap''⟩
        · rw [if_neg hmn]
          refine ⟨t', rfl, Rotated.refl t', ?_⟩
          rw [hroot']
          exact h.heap.graft ⟨hnl, by simp only [topKey_node]; omega, hhnl, hheap⟩
            (by rw [hn]; simp)

/-! ## `MergeInsert` -/

/-- **`MergeInsert`.**  It never faults; it inserts the block exactly when none of its units is
    free already, and leaves the tree alone otherwise. -/
theorem mergeInsert_spec {t : CartesianTree} (h : t.Inv) {idx num : Nat} (f : Bool)
    (hnum : 0 < num) (hbound : idx + num < 2 ^ 32) :
    (t.mergeInsert idx num f = .ok (t, false) ∧
      ¬ Disjoint t.freeUnits (Set.Ico idx (idx + num))) ∨
    ∃ t', t.mergeInsert idx num f = .ok (t', true) ∧ t'.Inv ∧
      Disjoint t.freeUnits (Set.Ico idx (idx + num)) ∧
      t'.freeUnits = t.freeUnits ∪ Set.Ico idx (idx + num) ∧ Recorded f t t' ∧
      PoolStep t t' := by
  have hfit : Fits t [] idx num := ⟨by simp, by simp, by simp⟩
  unfold mergeInsert
  cases hroot : t.root with
  | nil =>
    right
    have hm := createNode_merged h.sound hfit.reaches (by rw [hroot]; simp) f hnum hbound
      hfit.before hfit.after
    obtain ⟨m, l, r, hr, hheap, -, -⟩ := hm.root
    exact ⟨_, rfl, ⟨hm.sound, by rw [hr, graft_root]; exact hheap⟩, hm.disjoint, hm.units,
      hm.recorded, hm.pool⟩
  | node n l r =>
    simp only [if_neg (show ¬ num = 0 by omega)]
    unfold mergeInsertInternal
    rcases mergeDescend_spec h f hnum hbound t.root [] [] .root (by simp) hfit with
      ⟨hres, hover⟩ | ⟨t', q, stack, hres, hstack, hq, hm⟩
    · left
      rw [hres]
      exact ⟨rfl, hover⟩
    · right
      obtain ⟨m, ml, mr, hr, hheap, htl, htr⟩ := hm.root
      obtain ⟨t'', hres', hrot, hheap'⟩ :=
        mergeRebalance_spec h hstack t' m ml mr hq hr hheap htl htr
      refine ⟨t'', ?_, ⟨hm.sound.rotated hrot, hheap'⟩, hm.disjoint, ?_, hm.recorded.rotated hrot,
        hm.pool.trans_same (by rw [liveSlots, liveSlots, hrot.inorder_eq])
          hrot.nodeAllocator_eq⟩
      · rw [hres]
        simp only [Except.bind, bind, Words.add_eq hbound]
        exact hres'
      · rw [hrot.freeUnits_eq, hm.units]

end CartesianTree

end CangjieRuntime.Heap
