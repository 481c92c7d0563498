/-
  Which block the take operations take from.

  `FindBestFitLowAddrPtr` walks the tree depth first, left before right, and keeps the best node
  so far: a smaller count, or the same count and a lower index (`Better`).  Once the best node fits
  exactly, it visits no right children any more.  That this loses nothing is the invariant of the
  loop (`bestFitLoop_best`):

    * the nodes below the stacked slots, top first, are in ascending index order, because a slot is
      replaced by its left child, then its right child;
    * once the best node fits exactly, a node still below the stack is behind it, or has at most
      `num` units; so nothing behind a visited node can be better.

  `TakeUnits` takes from the last node of a level-order scan that is large enough, so all that is
  known of its block is that it fits; the two operations agree on when they fail.
-/
import CangjieRuntime.Heap.TreeTake
import CangjieRuntime.Heap.InsertExact

set_option linter.unusedVariables false

namespace CangjieRuntime.Heap

open SlotTree Blocks

namespace CartesianTree

variable {t : CartesianTree} {num : Nat}

/-! ## The order of the search -/

/-- The search prefers `a` to `b`.  It has fewer units, or as many and a lower index: the order in
    which `FindBestFitLowAddrPtr` keeps its best node. -/
def Better (a b : CartesianNode) : Prop :=
  a.count < b.count ∨ (a.count = b.count ∧ a.index < b.index)

instance (a b : CartesianNode) : Decidable (Better a b) := by
  unfold Better
  infer_instance

/-- A node is not better than itself. -/
theorem not_better_self (a : CartesianNode) : ¬ Better a a := by
  unfold Better
  omega

/-- What is not better than something no better is no better. -/
theorem not_better_trans {a b c : CartesianNode} (h : ¬ Better a b) (h' : ¬ Better b c) :
    ¬ Better a c := by
  unfold Better at *
  omega

/-- The node in a slot.  The operations of the source pass slots, not nodes, since a node may be
    replaced under its parent. -/
def NodeAt (t : CartesianTree) (slot : Slot) (n : CartesianNode) : Prop :=
  ∃ l r, subtree t.root slot = .node n l r

/-- The nodes below the slots of a stack, top first. -/
def nodesOf (t : CartesianTree) (stack : List Slot) : List CartesianNode :=
  stack.flatMap fun p => inorder (subtree t.root p)

@[simp] theorem nodesOf_nil (t : CartesianTree) : t.nodesOf [] = [] := rfl
@[simp] theorem nodesOf_cons (t : CartesianTree) (p : Slot) (stack : List Slot) :
    t.nodesOf (p :: stack) = inorder (subtree t.root p) ++ t.nodesOf stack := rfl
@[simp] theorem nodesOf_append (t : CartesianTree) (stack stack' : List Slot) :
    t.nodesOf (stack ++ stack') = t.nodesOf stack ++ t.nodesOf stack' := by
  simp [nodesOf]

/-- The child in `slot`, if the search pushes it. -/
def fitting (num : Nat) (s : BinaryTree CartesianNode) (slot : Slot) : List Slot :=
  if fits num s then [slot] else []

/-- A subtree that is not pushed has no block that is large enough. -/
theorem mem_nodesOf_fitting {s : BinaryTree CartesianNode} {slot : Slot}
    (hs : subtree t.root slot = s) (hheap : HeapOrdered CartesianNode.count s) {m : CartesianNode}
    (hle : num ≤ m.count) : m ∈ t.nodesOf (fitting num s slot) ↔ m ∈ inorder s := by
  unfold fitting
  by_cases hfit : fits num s = true
  · rw [if_pos hfit, nodesOf_cons, nodesOf_nil, List.append_nil, hs]
  · rw [if_neg hfit]
    refine ⟨fun hm => absurd hm List.not_mem_nil, fun hm => absurd ?_ hfit⟩
    have htop := hheap.le_topKey m hm
    cases s with
    | nil => exact absurd hm List.not_mem_nil
    | node n l r =>
      rw [topKey_node] at htop
      exact decide_eq_true (Nat.le_trans hle htop)

/-- The nodes below the children that fit are nodes of the subtree. -/
theorem nodesOf_fitting_sublist {s : BinaryTree CartesianNode} {slot : Slot}
    (hs : subtree t.root slot = s) : (t.nodesOf (fitting num s slot)).Sublist (inorder s) := by
  unfold fitting
  by_cases hfit : fits num s = true
  · rw [if_pos hfit, nodesOf_cons, nodesOf_nil, List.append_nil, hs]
  · rw [if_neg hfit]
    exact List.nil_sublist _

/-- There are at most as many of them. -/
theorem pending_fitting_le {s : BinaryTree CartesianNode} {slot : Slot}
    (hs : subtree t.root slot = s) : t.pending (fitting num s slot) ≤ s.numNodes := by
  unfold fitting
  by_cases hfit : fits num s = true
  · rw [if_pos hfit, pending_cons, pending_nil, hs]
    exact Nat.le_refl _
  · rw [if_neg hfit]
    exact Nat.zero_le _

/-- The slots that are pushed are slots that fit. -/
theorem fitsAt_of_mem_fitting {s : BinaryTree CartesianNode} {slot : Slot}
    (hs : subtree t.root slot = s) {p : Slot} (hp : p ∈ fitting num s slot) :
    FitsAt t num p := by
  unfold fitting at hp
  by_cases hfit : fits num s = true
  · rw [if_pos hfit, List.mem_singleton] at hp
    rw [hp, ← fits_iff, hs]
    exact hfit
  · rw [if_neg hfit] at hp
    exact absurd hp List.not_mem_nil

/-! ## The search loop -/

/-- One round: the node replaces the best one if it is better, and its children are pushed, the
    right one only as long as the best node does not fit exactly. -/
theorem bestFitLoop_cons {q b : Slot} {n bn : CartesianNode} {l r : BinaryTree CartesianNode}
    (hq : subtree t.root q = .node n l r) (hle : num ≤ n.count) (hb : NodeAt t b bn) (fuel : Nat)
    (stack : List Slot) :
    t.bestFitLoop num (fuel + 1) (q :: stack) (some b) =
      t.bestFitLoop num fuel
        (fitting num l (q ++ [.left]) ++
          (if (if Better n bn then n else bn).count = num then []
            else fitting num r (q ++ [.right])) ++ stack)
        (some (if Better n bn then q else b)) := by
  obtain ⟨bl, br, hb⟩ := hb
  conv => lhs; unfold bestFitLoop
  rw [hq]
  simp only [if_neg (show ¬ n.count < num by omega), bestNodeOf, hb, bind, Except.bind, fitting]
  by_cases hbetter : Better n bn
  · have hcond : some b = none ∨ n.count < bn.count ∨
        (n.count = bn.count ∧ n.index < bn.index) := Or.inr hbetter
    simp only [if_pos hbetter, if_pos hcond]
    by_cases hexact : n.count = num
    · rw [if_pos hexact, if_pos hexact, List.append_nil]
    · rw [if_neg hexact, if_neg hexact]
  · have hcond : ¬ (some b = none ∨ n.count < bn.count ∨
        (n.count = bn.count ∧ n.index < bn.index)) := by
      rintro (hnone | hbetter')
      · exact absurd hnone (Option.some_ne_none b)
      · exact hbetter hbetter'
    simp only [if_neg hbetter, if_neg hcond]
    by_cases hexact : bn.count = num
    · rw [if_pos hexact, if_pos hexact, List.append_nil]
    · rw [if_neg hexact, if_neg hexact]

/-- With no best node yet, the first node becomes it. -/
theorem bestFitLoop_none {q : Slot} {n : CartesianNode} {l r : BinaryTree CartesianNode}
    (hq : subtree t.root q = .node n l r) (hle : num ≤ n.count) (fuel : Nat) (stack : List Slot) :
    t.bestFitLoop num (fuel + 1) (q :: stack) none =
      t.bestFitLoop num (fuel + 1) (q :: stack) (some q) := by
  rw [bestFitLoop_cons hq hle ⟨l, r, hq⟩, if_neg (not_better_self n), if_neg (not_better_self n)]
  conv => lhs; unfold bestFitLoop
  rw [hq]
  simp only [if_neg (show ¬ n.count < num by omega), bestNodeOf, bind, Except.bind, fitting,
    true_or, if_true]
  by_cases hexact : n.count = num
  · rw [if_pos hexact, if_pos hexact, List.append_nil]
  · rw [if_neg hexact, if_neg hexact]

/-! ## One round

Over the lists of the nodes left and right of `n` and of those below the rest of the stack. -/

section Round

variable {n bn : CartesianNode} {left right rest : List CartesianNode}

/-- The better one of two nodes fits, and neither is better than it. -/
theorem best_round (hle : num ≤ n.count) (hbn : num ≤ bn.count) :
    num ≤ (if Better n bn then n else bn).count ∧ ¬ Better n (if Better n bn then n else bn) ∧
      ¬ Better bn (if Better n bn then n else bn) := by
  by_cases hbetter : Better n bn
  · rw [if_pos hbetter]
    refine ⟨hle, not_better_self n, ?_⟩
    unfold Better at hbetter ⊢
    omega
  · rw [if_neg hbetter]
    exact ⟨hbn, hbetter, not_better_self bn⟩

/-- If the best node now fits exactly, all that is still visited is behind it or no better: the left
    subtree has no larger node than `n`, and the rest of the stack is behind `n`. -/
theorem exact_round (hleft : ∀ m ∈ left, m.count ≤ n.count) (hrest : ∀ m ∈ rest, n.index < m.index)
    (hexact : bn.count = num → ∀ m ∈ left ++ n :: right ++ rest,
      m.count ≤ num ∨ bn.index < m.index)
    (hcount : (if Better n bn then n else bn).count = num) :
    ∀ m ∈ left ++ rest, m.count ≤ num ∨ (if Better n bn then n else bn).index < m.index := by
  intro m hm
  by_cases hbetter : Better n bn
  · rw [if_pos hbetter] at hcount ⊢
    rcases List.mem_append.mp hm with hm | hm
    · have := hleft m hm
      exact Or.inl (by omega)
    · exact Or.inr (hrest m hm)
  · rw [if_neg hbetter] at hcount ⊢
    refine hexact hcount m ?_
    rcases List.mem_append.mp hm with hm | hm
    · exact List.mem_append_left _ (List.mem_append_left _ hm)
    · exact List.mem_append_right _ hm

/-- And so is what is no longer visited. -/
theorem right_round (hright : ∀ m ∈ right, n.index < m.index)
    (hexact : bn.count = num → ∀ m ∈ left ++ n :: right ++ rest,
      m.count ≤ num ∨ bn.index < m.index)
    (hcount : (if Better n bn then n else bn).count = num) :
    ∀ m ∈ right, num ≤ m.count → ¬ Better m (if Better n bn then n else bn) := by
  intro m hm hle
  have hnm := hright m hm
  by_cases hbetter : Better n bn
  · rw [if_pos hbetter] at hcount ⊢
    unfold Better
    omega
  · rw [if_neg hbetter] at hcount ⊢
    have hold := hexact hcount
    have hn := hold n (List.mem_append_left _ (List.mem_append_right _ List.mem_cons_self))
    have hm' := hold m (List.mem_append_left _
      (List.mem_append_right _ (List.mem_cons_of_mem _ hm)))
    unfold Better at hbetter ⊢
    omega

end Round

/-- What is pushed of the right child: nothing behind an exact fit. -/
theorem pushedRight_spec {s : BinaryTree CartesianNode} {slot : Slot} (hs : subtree t.root slot = s)
    (hheap : HeapOrdered CartesianNode.count s) (exact : Prop) [Decidable exact] :
    t.pending (if exact then [] else fitting num s slot) ≤ s.numNodes ∧
    (∀ p ∈ if exact then [] else fitting num s slot, FitsAt t num p) ∧
    (t.nodesOf (if exact then [] else fitting num s slot)).Sublist (inorder s) ∧
    (¬ exact → ∀ m ∈ inorder s, num ≤ m.count →
      m ∈ t.nodesOf (if exact then [] else fitting num s slot)) := by
  by_cases hexact : exact
  · rw [if_pos hexact]
    refine ⟨Nat.zero_le _, ?_, List.nil_sublist _, ?_⟩
    · intro p hp
      exact absurd hp List.not_mem_nil
    · intro h
      exact absurd hexact h
  · rw [if_neg hexact]
    refine ⟨pending_fitting_le hs, ?_, nodesOf_fitting_sublist hs, ?_⟩
    · intro p hp
      exact fitsAt_of_mem_fitting hs hp
    · intro _ m hm hle
      exact (mem_nodesOf_fitting hs hheap hle).mpr hm

/-- **The search is optimal.**  The induction is on the nodes below the stack; what it carries is
    that they are in index order, and that behind an exact fit there is nothing better. -/
theorem bestFitLoop_best (hheap : HeapOrdered CartesianNode.count t.root) (fuel : Nat) :
    ∀ (stack : List Slot) (b : Slot) (bn : CartesianNode), t.pending stack ≤ fuel →
      (∀ q ∈ stack, FitsAt t num q) → NodeAt t b bn → num ≤ bn.count →
      (t.nodesOf stack).Pairwise (fun m m' => m.index < m'.index) →
      (bn.count = num → ∀ m ∈ t.nodesOf stack, m.count ≤ num ∨ bn.index < m.index) →
      ∃ b' bn', t.bestFitLoop num fuel stack (some b) = .ok (some b') ∧ NodeAt t b' bn' ∧
        num ≤ bn'.count ∧ ¬ Better bn bn' ∧
        ∀ m ∈ t.nodesOf stack, num ≤ m.count → ¬ Better m bn' := by
  induction fuel with
  | zero =>
    intro stack b bn hfuel hstack hb hle _ _
    cases stack with
    | nil => exact ⟨b, bn, rfl, hb, hle, not_better_self bn, fun m hm => absurd hm List.not_mem_nil⟩
    | cons q stack =>
      obtain ⟨n, l, r, hq, -⟩ := hstack q List.mem_cons_self
      rw [pending_cons, hq] at hfuel
      simp at hfuel
  | succ fuel ih =>
    intro stack b bn hfuel hstack hb hbn hsorted hexact
    cases stack with
    | nil => exact ⟨b, bn, rfl, hb, hbn, not_better_self bn, fun m hm => absurd hm List.not_mem_nil⟩
    | cons q stack =>
      obtain ⟨n, l, r, hq, hle⟩ := hstack q List.mem_cons_self
      obtain ⟨hl, hr⟩ := subtree_child hq
      have hheapq := hheap.subtree q
      rw [hq, heapOrdered_node] at hheapq
      obtain ⟨hln, -, hhl, hhr⟩ := hheapq
      rw [bestFitLoop_cons hq hle hb]
      rw [nodesOf_cons, hq, inorder_node] at hsorted hexact ⊢
      -- the order of the indices: the left subtree, the node, the right subtree, the stack
      obtain ⟨hsub, -, hcross⟩ := List.pairwise_append.mp hsorted
      obtain ⟨-, hsub', -⟩ := List.pairwise_append.mp hsub
      obtain ⟨hnr, -⟩ := List.pairwise_cons.mp hsub'
      have hnstack : ∀ m ∈ t.nodesOf stack, n.index < m.index := fun m hm =>
        hcross n (List.mem_append_right _ List.mem_cons_self) m hm
      have hnleft : ∀ m ∈ inorder l, m.count ≤ n.count := fun m hm =>
        Nat.le_trans (hhl.le_topKey m hm) hln
      -- the best node after this round
      have hb₁ : NodeAt t (if Better n bn then q else b) (if Better n bn then n else bn) := by
        split_ifs
        · exact ⟨l, r, hq⟩
        · exact hb
      have hbest := best_round hle hbn
      have hexact₁ := exact_round hnleft hnstack hexact
      have hright := right_round hnr hexact
      generalize (if Better n bn then n else bn) = bn₁ at *
      -- the stack after this round
      have hpendL := @pending_fitting_le t num _ _ hl
      have hsubL := @nodesOf_fitting_sublist t num _ _ hl
      obtain ⟨hpendR, hfitsR, hsubR, hmemR⟩ :=
        @pushedRight_spec t num _ _ hr hhr (bn₁.count = num) _
      have hnilR : bn₁.count = num →
          (if bn₁.count = num then [] else fitting num r (q ++ [.right])) = [] :=
        fun hcount => if_pos hcount
      generalize (if bn₁.count = num then [] else fitting num r (q ++ [.right])) = pushed at *
      have hnodes : t.nodesOf (fitting num l (q ++ [.left]) ++ pushed ++ stack) =
          t.nodesOf (fitting num l (q ++ [.left])) ++ t.nodesOf pushed ++ t.nodesOf stack := by
        rw [nodesOf_append, nodesOf_append]
      have hpend : t.pending (fitting num l (q ++ [.left]) ++ pushed ++ stack) ≤ fuel := by
        rw [pending_cons, hq, BinaryTree.numNodes] at hfuel
        rw [pending_append, pending_append]
        omega
      have hfits : ∀ p ∈ fitting num l (q ++ [.left]) ++ pushed ++ stack, FitsAt t num p := by
        intro p hp
        rcases List.mem_append.mp hp with hp | hp
        · rcases List.mem_append.mp hp with hp | hp
          · exact fitsAt_of_mem_fitting hl hp
          · exact hfitsR p hp
        · exact hstack p (List.mem_cons_of_mem _ hp)
      have hsorted₁ : (t.nodesOf (fitting num l (q ++ [.left]) ++ pushed ++ stack)).Pairwise
          (fun m m' => m.index < m'.index) := by
        rw [hnodes]
        refine hsorted.sublist (List.Sublist.append ?_ (List.Sublist.refl _))
        exact hsubL.append (hsubR.trans (List.sublist_cons_self _ _))
      have hexact₂ : bn₁.count = num →
          ∀ m ∈ t.nodesOf (fitting num l (q ++ [.left]) ++ pushed ++ stack),
            m.count ≤ num ∨ bn₁.index < m.index := by
        intro hcount m hm
        rw [hnodes, hnilR hcount, nodesOf_nil, List.append_nil] at hm
        exact hexact₁ hcount m ((hsubL.append (List.Sublist.refl _)).subset hm)
      obtain ⟨b', bn', hres, hb', hbn', hold, hopt⟩ :=
        ih _ _ bn₁ hpend hfits hb₁ hbest.1 hsorted₁ hexact₂
      rw [hnodes] at hopt
      refine ⟨b', bn', hres, hb', hbn', not_better_trans hbest.2.2 hold, ?_⟩
      intro m hm hmle
      rcases List.mem_append.mp hm with hm | hm
      · rcases List.mem_append.mp hm with hm | hm
        · exact hopt m (List.mem_append_left _ (List.mem_append_left _
            ((mem_nodesOf_fitting hl hhl hmle).mpr hm))) hmle
        · rcases List.mem_cons.mp hm with rfl | hm
          · exact not_better_trans hbest.2.1 hold
          · by_cases hcount : bn₁.count = num
            · exact not_better_trans (hright hcount m hm hmle) hold
            · exact hopt m (List.mem_append_left _ (List.mem_append_right _
                (hmemR hcount m hm hmle))) hmle
      · exact hopt m (List.mem_append_right _ hm) hmle

/-- `FindBestFitLowAddrPtr` from the root, when the root is large enough. -/
theorem findBestFitLowAddrPtr_best (h : t.Inv) (hblock : ∃ n ∈ inorder t.root, num ≤ n.count) :
    ∃ q n, t.findBestFitLowAddrPtr (some []) num none = .ok (some q) ∧ NodeAt t q n ∧
      num ≤ n.count ∧ ∀ m ∈ inorder t.root, num ≤ m.count → ¬ Better m n := by
  obtain ⟨m, hm, hle⟩ := hblock
  have htop := h.heap.le_topKey m hm
  -- the loop starts at the root, which has the largest count
  cases hroot : t.root with
  | nil =>
    rw [hroot] at hm
    exact absurd hm List.not_mem_nil
  | node root l r =>
    have hsub : subtree t.root [] = .node root l r := by rw [subtree_root, hroot]
    rw [hroot, topKey_node] at htop
    have hroot' : num ≤ root.count := Nat.le_trans hle htop
    have hnodes : t.nodesOf [[]] = inorder t.root := by
      rw [nodesOf_cons, nodesOf_nil, List.append_nil, subtree_root]
    have hfit : fits num (subtree t.root []) = true := by
      rw [fits_iff]
      exact ⟨root, l, r, hsub, hroot'⟩
    obtain ⟨b, n, hres, hb, hn, -, hopt⟩ := @bestFitLoop_best t num h.heap t.root.numNodes
      [[]] [] root (by rw [pending_cons, pending_nil, subtree_root]; exact Nat.le_refl _)
      (fun q hq => by rw [List.mem_singleton.mp hq]; exact fits_iff.mp hfit) ⟨l, r, hsub⟩ hroot'
      (by
        rw [hnodes]
        refine h.sound.coalesced.imp fun {a b} hab => ?_
        omega)
      (by
        intro hcount m hm
        rw [hnodes, hroot] at hm
        have hheap := h.heap
        rw [hroot] at hheap
        have := hheap.le_topKey m hm
        rw [topKey_node] at this
        exact Or.inl (by omega))
    rw [hnodes] at hopt
    refine ⟨b, n, ?_, hb, hn, by rw [← hroot]; exact hopt⟩
    unfold findBestFitLowAddrPtr
    simp only [if_pos hfit]
    obtain ⟨fuel, hfuel⟩ : ∃ fuel, t.root.numNodes = fuel + 1 :=
      ⟨l.numNodes + r.numNodes, by rw [hroot, BinaryTree.numNodes]⟩
    rw [hfuel] at hres ⊢
    rw [bestFitLoop_none hsub hroot', hres]

/-! ## The take operations -/

/-- `num` units were taken off the front of the block `n`. -/
structure Took (t t' : CartesianTree) (n : CartesianNode) (num : Nat) : Prop where
  mem : n ∈ inorder t.root
  fits : num ≤ n.count
  inv : t'.Inv
  units : t'.freeUnits = t.freeUnits \ Set.Ico n.index (n.index + num)

/-- Either no block is large enough and nothing changes, or a block with `P` was taken from. -/
def Takes (t : CartesianTree) (num : Nat) (P : CartesianNode → Prop)
    (result : Except Fault (CartesianTree × Option Nat)) : Prop :=
  (result = .ok (t, none) ∧ ∀ n ∈ inorder t.root, n.count < num) ∨
    ∃ t' n, result = .ok (t', some n.index) ∧ Took t t' n num ∧ P n

/-- The node that was found is cut, and nothing else is taken. -/
theorem takes_of_node (h : t.Inv) (hnum : 0 < num) (f : Bool) {q : Slot} {n : CartesianNode}
    (hn : NodeAt t q n) (hle : num ≤ n.count) {P : CartesianNode → Prop} (hP : P n) :
    Takes t num P ((t.takeFront q num f).bind fun x => .ok (x.1, some x.2)) := by
  obtain ⟨l, r, hn⟩ := hn
  obtain ⟨t', hres, hinv, hunits, -, -⟩ := takeFront_spec h hn f hnum hle
  exact Or.inr ⟨t', n, by rw [hres]; rfl, ⟨mem_of_subtree hn, hle, hinv, hunits⟩, hP⟩

/-- **`TakeUnits`** takes from some block that is large enough.  The one that it takes from is found
    from the root on, and the take is at its low end. -/
theorem takeUnits_takes (h : t.Inv) (hnum : 0 < num) (f : Bool) :
    Takes t num (fun _ => True) (t.takeUnits num f) := by
  unfold takeUnits
  cases hroot : t.root with
  | nil =>
    rw [if_pos (Or.inl rfl)]
    refine Or.inl ⟨rfl, fun n hn => ?_⟩
    rw [hroot] at hn
    exact absurd hn List.not_mem_nil
  | node root l r =>
    have hrun : ¬ (BinaryTree.node root l r = .nil ∨ num = 0) := by
      rintro (hnil | hzero)
      · cases hnil
      · omega
    rw [if_neg hrun]
    unfold takeUnitsImpl
    simp only [hroot]
    by_cases hlt : root.count < num
    · rw [if_pos hlt]
      refine Or.inl ⟨rfl, fun n hn => ?_⟩
      have := h.heap.le_topKey n hn
      rw [hroot, topKey_node] at this
      omega
    · rw [if_neg hlt]
      have hsub : subtree t.root [] = .node root l r := by rw [subtree_root, hroot]
      obtain ⟨hchild, hnodes⟩ := childSlots_spec hsub
      obtain ⟨q, hres, n, ql, qr, hq, hle⟩ := lastFitting_spec num
        (BinaryTree.node root l r).numNodes (childSlots [] l r) []
        (by rw [hchild, BinaryTree.numNodes]; omega) hnodes ⟨root, l, r, hsub, by omega⟩
      have htakes := takes_of_node h hnum f ⟨ql, qr, hq⟩ hle (P := fun _ => True) trivial
      rw [hres]
      exact htakes

/-- **`TakeUnitsLowAddr`** takes from the best block.  Best means `Better` than all others that are
    large enough. -/
theorem takeUnitsLowAddr_takes (h : t.Inv) (hnum : 0 < num) (f : Bool) :
    Takes t num (fun n => ∀ m ∈ inorder t.root, num ≤ m.count → ¬ Better m n)
      (t.takeUnitsLowAddr num f) := by
  by_cases hblock : ∃ n ∈ inorder t.root, num ≤ n.count
  · obtain ⟨q, n, hres, hq, hle, hopt⟩ := findBestFitLowAddrPtr_best h hblock
    have hroot : ¬ (t.root = .nil ∨ num = 0) := by
      rintro (hnil | hzero)
      · obtain ⟨m, hm, -⟩ := hblock
        rw [hnil] at hm
        exact absurd hm List.not_mem_nil
      · omega
    have htakes := takes_of_node h hnum f hq hle
      (P := fun n => ∀ m ∈ inorder t.root, num ≤ m.count → ¬ Better m n) hopt
    unfold takeUnitsLowAddr takeUnitsLowAddrImpl
    rw [if_neg hroot, hres]
    exact htakes
  · have hsmall : ∀ n ∈ inorder t.root, n.count < num := fun n hn =>
      Nat.lt_of_not_le fun hle => hblock ⟨n, hn, hle⟩
    rcases takeUnitsLowAddr_spec h num f hnum with ⟨hres, -⟩ | ⟨t', idx, -, -, -, -, -, hfit, -⟩
    · exact Or.inl ⟨hres, hsmall⟩
    · exact absurd hfit hblock

/-- **Best fit, lowest address.**  `TakeUnitsLowAddr` fails exactly when no block is large enough;
    otherwise it takes from the lowest of the smallest blocks that are.  The search leaves out the
    subtrees below a block that is too small, which the heap order allows, and of two blocks of one
    size it keeps the lower one. -/
theorem takeUnitsLowAddr_bestFit (h : t.Inv) (hnum : 0 < num) (f : Bool) :
    ((∃ t', t.takeUnitsLowAddr num f = .ok (t', none)) ↔ ∀ n ∈ inorder t.root, n.count < num) ∧
    ((∃ n ∈ inorder t.root, num ≤ n.count) →
      ∃ t' n, t.takeUnitsLowAddr num f = .ok (t', some n.index) ∧ Took t t' n num ∧
        ∀ m ∈ inorder t.root, num ≤ m.count →
          n.count ≤ m.count ∧ (m.count = n.count → n.index ≤ m.index)) := by
  rcases takeUnitsLowAddr_takes h hnum f with ⟨hres, hsmall⟩ | ⟨t', n, hres, htook, hopt⟩
  · refine ⟨⟨fun _ => hsmall, fun _ => ⟨t, hres⟩⟩, fun ⟨n, hn, hle⟩ => ?_⟩
    have := hsmall n hn
    omega
  · refine ⟨⟨fun ⟨t'', hnone⟩ => ?_, fun hsmall => ?_⟩, fun _ => ⟨t', n, hres, htook, ?_⟩⟩
    · rw [hres] at hnone
      cases hnone
    · have := hsmall n htook.mem
      have := htook.fits
      omega
    · intro m hm hle
      have hnot := hopt m hm hle
      unfold Better at hnot
      omega

/-- Of two blocks, the one that fits exactly. -/
theorem takeUnitsLowAddr_bestFit_exact : ∃ t' n, twoBlocks.takeUnitsLowAddr 3 true =
    .ok (t', some n.index) ∧ Took twoBlocks t' n 3 ∧
      ∀ m ∈ inorder twoBlocks.root, 3 ≤ m.count →
        n.count ≤ m.count ∧ (m.count = n.count → n.index ≤ m.index) :=
  (takeUnitsLowAddr_bestFit twoBlocks_inv (by decide) true).2 (by decide)

/-- **The two take operations agree.**  Each of them succeeds exactly when some block is large
    enough; then it returns the low end of such a block and takes its first units, and nothing
    else; when it fails it changes nothing. -/
theorem takeUnits_agree (h : t.Inv) (hnum : 0 < num) (f : Bool) :
    ∀ result, result = t.takeUnits num f ∨ result = t.takeUnitsLowAddr num f →
      ((∃ t' idx, result = .ok (t', some idx)) ↔ ∃ n ∈ inorder t.root, num ≤ n.count) ∧
      ((∃ t', result = .ok (t', none)) ↔ ∀ n ∈ inorder t.root, n.count < num) ∧
      (∀ t' idx, result = .ok (t', some idx) → ∃ n, idx = n.index ∧ Took t t' n num) ∧
      ∀ t', result = .ok (t', none) → t' = t := by
  intro result hresult
  obtain ⟨P, htakes⟩ : ∃ P, Takes t num P result := by
    rcases hresult with rfl | rfl
    · exact ⟨_, takeUnits_takes h hnum f⟩
    · exact ⟨_, takeUnitsLowAddr_takes h hnum f⟩
  rcases htakes with ⟨rfl, hsmall⟩ | ⟨t', n, rfl, htook, -⟩
  · refine ⟨⟨fun ⟨t', idx, hres⟩ => ?_, fun ⟨n, hn, hle⟩ => ?_⟩, ⟨fun _ => hsmall, fun _ => ⟨t, rfl⟩⟩,
      fun t' idx hres => ?_, fun t' hres => ?_⟩
    · cases hres
    · have := hsmall n hn
      omega
    · cases hres
    · cases hres
      rfl
  · refine ⟨⟨fun _ => ⟨n, htook.mem, htook.fits⟩, fun _ => ⟨t', _, rfl⟩⟩,
      ⟨fun ⟨t'', hres⟩ => ?_, fun hsmall => ?_⟩, fun t'' idx hres => ?_, fun t'' hres => ?_⟩
    · cases hres
    · have := hsmall n htook.mem
      have := htook.fits
      omega
    · cases hres
      exact ⟨n, rfl, htook⟩
    · cases hres

/-- Both operations on two blocks, for a request that one of them can serve. -/
theorem takeUnits_agree_twoBlocks : (∃ t' idx, twoBlocks.takeUnits 3 true = .ok (t', some idx)) ∧
    ∃ t' idx, twoBlocks.takeUnitsLowAddr 3 true = .ok (t', some idx) :=
  ⟨(takeUnits_agree twoBlocks_inv (by decide) true _ (Or.inl rfl)).1.mpr (by decide),
    (takeUnits_agree twoBlocks_inv (by decide) true _ (Or.inr rfl)).1.mpr (by decide)⟩

end CartesianTree

end CangjieRuntime.Heap
