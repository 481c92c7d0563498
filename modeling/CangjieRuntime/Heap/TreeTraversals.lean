/-
  The traversals of the tree over their real work lists (`rt.heap.allocator/CartesianTree.cj`).

  The model of the operations keeps the slots it still has to visit in lists.  The code keeps them
  in a `LocalDeque` that spills to the tree's `SingleUseDeque`, whose mapping has room for as many
  values as the tree can have nodes, and pushes without a check.  Here each traversal is written
  again, over the deque, and proved equal to the one over a list for every tree that has no more
  nodes than the mapping has room for values: no push leaves the mapping.

    * a queue holds slots of disjoint subtrees and has handed out the nodes above them, so the
      pushes made so far and the nodes still to come are no more than the nodes of the tree;
    * the stack of the descent holds the path to the current slot;
    * the stack of the best-fit search holds slots of disjoint subtrees.
-/
import CangjieRuntime.Heap.LocalDeque
import CangjieRuntime.Heap.TreeTake

set_option linter.unusedVariables false

namespace CangjieRuntime.Heap

open SlotTree

/-- What a traversal stops with.  It is one of the deque, or one of what the tree does around it. -/
inductive ScanFault
  | deque (f : DequeFault)
  | tree (f : Fault)
  deriving DecidableEq, Repr

/-- A step of the tree. -/
def ofTree {α : Type} (x : Except Fault α) : Except ScanFault α := x.mapError .tree

/-- A step of the deque. -/
def ofDeque {α : Type} (x : Except DequeFault α) : Except ScanFault α := x.mapError .deque

@[simp] theorem ofTree_ok {α : Type} (a : α) : ofTree (.ok a) = .ok a := rfl
@[simp] theorem ofTree_error {α : Type} (f : Fault) :
    ofTree (.error f : Except Fault α) = .error (.tree f) := rfl
@[simp] theorem ofDeque_ok {α : Type} (a : α) : ofDeque (.ok a) = .ok a := rfl

namespace CartesianTree

/-! ## The traversals -/

/-- `ForwardIterator(tree)`: the root, if there is one, is in the queue. -/
def forwardIterator (t : CartesianTree) (sud : SingleUseDeque) (mapping : Nat → Slot) :
    Except ScanFault (LocalDeque Slot) :=
  let localQueue := LocalDeque.init sud mapping []
  if t.root ≠ .nil then ofDeque (localQueue.push []) else .ok localQueue

/-- Push a value under a condition. -/
def pushIf {α : Type} (cond : Prop) [Decidable cond] (q : LocalDeque α) (v : α) :
    Except ScanFault (LocalDeque α) :=
  if cond then ofDeque (q.push v) else .ok q

/-- `ForwardIterator.Next`: the first node of the queue, whose children are put behind the
    others. -/
def forwardNext (t : CartesianTree) (localQueue : LocalDeque Slot) :
    Except ScanFault (Option Slot × LocalDeque Slot) :=
  if localQueue.isEmpty then .ok (none, localQueue)
  else do
    let topElement ← ofDeque localQueue.frontValue
    match subtree t.root topElement with
    | .nil => .error (.tree .nullDeref)
    | .node _ l r => do
      let localQueue ← pushIf (r ≠ .nil) localQueue (topElement ++ [.right])
      let localQueue ← pushIf (l ≠ .nil) localQueue (topElement ++ [.left])
      .ok (some topElement, localQueue.popFront)

/-- The loop of `TakeUnitsImpl`. -/
def lastFittingScan (t : CartesianTree) (num : Nat) :
    Nat → LocalDeque Slot → Slot → Except ScanFault Slot
  | 0, _, _ => .error (.tree .outOfFuel)
  | fuel + 1, localQueue, nodeSlot => do
    let (nextNodeSlot, localQueue) ← t.forwardNext localQueue
    match nextNodeSlot with
    | none => .ok nodeSlot
    | some next =>
      match subtree t.root next with
      | .nil => .error (.tree .nullDeref)
      | .node n _ _ =>
        if n.count < num then .ok nodeSlot else lastFittingScan t num fuel localQueue next

/-- `TakeUnitsImpl` over the iterator: the last node before the first one that is too small. -/
def takeUnitsImplScan (t : CartesianTree) (sud : SingleUseDeque) (mapping : Nat → Slot)
    (num : Nat) (refreshRegionInfo : Bool) : Except ScanFault (CartesianTree × Option Nat) := do
  let localQueue ← t.forwardIterator sud mapping
  let (nodeSlot, localQueue) ← t.forwardNext localQueue
  match nodeSlot with
  | none => .ok (t, none)
  | some nodeSlot =>
    match subtree t.root nodeSlot with
    | .nil => .error (.tree .nullDeref)
    | .node n _ _ =>
      if n.count < num then .ok (t, none)
      else do
        let nodeSlot ← t.lastFittingScan num (t.root.numNodes + 1) localQueue nodeSlot
        let (t, idx) ← ofTree (t.takeFront nodeSlot num refreshRegionInfo)
        .ok (t, some idx)

/-- The first loop of `MergeInsertInternal`. -/
def mergeDescendScan (t : CartesianTree) (idx num : Nat) (refreshRegionInfo : Bool) :
    BinaryTree CartesianNode → Slot → LocalDeque Slot →
      Except ScanFault (Option (CartesianTree × LocalDeque Slot))
  | .nil, nodeSlot, nodeSlotStack =>
    .ok (some ((t.createNode nodeSlot idx num refreshRegionInfo).incTotalCount num, nodeSlotStack))
  | .node n l r, nodeSlot, nodeSlotStack => do
    let (t', result) ← ofTree (t.mergeAt nodeSlot n idx num refreshRegionInfo)
    match result with
    | .success => .ok (some (t', nodeSlotStack))
    | .error => .ok none
    | .miss =>
      if Words.add 32 idx num < n.index then do
        let nodeSlotStack ← ofDeque (nodeSlotStack.push nodeSlot)
        mergeDescendScan t idx num refreshRegionInfo l (nodeSlot ++ [.left]) nodeSlotStack
      else if Words.add 32 n.index n.count < idx then do
        let nodeSlotStack ← ofDeque (nodeSlotStack.push nodeSlot)
        mergeDescendScan t idx num refreshRegionInfo r (nodeSlot ++ [.right]) nodeSlotStack
      else .ok none

/-- The second loop of `MergeInsertInternal`. -/
def mergeRebalanceScan (idx endIdx : Nat) :
    Nat → LocalDeque Slot → CartesianTree → Except ScanFault (CartesianTree × Bool)
  | 0, _, _ => .error (.tree .outOfFuel)
  | fuel + 1, nodeSlotStack, t =>
    if nodeSlotStack.isEmpty then .ok (t, true)
    else do
      let nodeSlot ← ofDeque nodeSlotStack.topValue
      let nodeSlotStack := nodeSlotStack.pop
      match subtree t.root nodeSlot with
      | .nil => .error (.tree .nullDeref)
      | .node n l r =>
        if endIdx < n.index then
          match l with
          | .nil => .error (.tree .nullDeref)
          | .node left _ _ =>
            if n.count < left.count then do
              let newRoot ← ofTree (rotateLeftChild (.node n l r))
              mergeRebalanceScan idx endIdx fuel nodeSlotStack (t.write nodeSlot newRoot)
            else .ok (t, true)
        else if Words.add 32 n.index n.count < idx then
          match r with
          | .nil => .error (.tree .nullDeref)
          | .node right _ _ =>
            if n.count < right.count then do
              let newRoot ← ofTree (rotateRightChild (.node n l r))
              mergeRebalanceScan idx endIdx fuel nodeSlotStack (t.write nodeSlot newRoot)
            else .ok (t, true)
        else .ok (t, false)

/-- `MergeInsertInternal` with the stack of slots in a deque. -/
def mergeInsertInternalScan (t : CartesianTree) (sud : SingleUseDeque) (mapping : Nat → Slot)
    (idx num : Nat) (refreshRegionInfo : Bool) : Except ScanFault (CartesianTree × Bool) := do
  match ← t.mergeDescendScan idx num refreshRegionInfo t.root [] (.init sud mapping []) with
  | none => .ok (t, false)
  | some (t', nodeSlotStack) =>
    mergeRebalanceScan idx (Words.add 32 idx num) (t.root.numNodes + 1) nodeSlotStack t'

/-- The loop of `FindBestFitLowAddrPtr`. -/
def bestFitLoopScan (t : CartesianTree) (num : Nat) :
    Nat → LocalDeque Slot → Option Slot → Except ScanFault (Option Slot)
  | 0, _, _ => .error (.tree .outOfFuel)
  | fuel + 1, stack, best =>
    if stack.isEmpty then .ok best
    else do
      let current ← ofDeque stack.topValue
      let stack := stack.pop
      match subtree t.root current with
      | .nil => bestFitLoopScan t num fuel stack best
      | .node n l r =>
        if n.count < num then bestFitLoopScan t num fuel stack best
        else do
          let bestNode ← ofTree (t.bestNodeOf best n)
          let better := best = none ∨ n.count < bestNode.count ∨
            (n.count = bestNode.count ∧ n.index < bestNode.index)
          let best := if better then some current else best
          let bestNode := if better then n else bestNode
          if bestNode.count = num then do
            let stack ← pushIf (fits num l) stack (current ++ [.left])
            bestFitLoopScan t num fuel stack best
          else do
            let stack ← pushIf (fits num r) stack (current ++ [.right])
            let stack ← pushIf (fits num l) stack (current ++ [.left])
            bestFitLoopScan t num fuel stack best

/-- `FindBestFitLowAddrPtr` with the stack of slots in a deque. -/
def findBestFitLowAddrPtrScan (t : CartesianTree) (sud : SingleUseDeque) (mapping : Nat → Slot)
    (nodeSlot : Option Slot) (num : Nat) (initialBest : Option Slot) :
    Except ScanFault (Option Slot) := do
  let stack := LocalDeque.init sud mapping []
  let stack ← match nodeSlot with
    | none => .ok stack
    | some slot => pushIf (fits num (subtree t.root slot)) stack slot
  t.bestFitLoopScan num (t.root.numNodes + 1) stack initialBest

/-! ## The queue -/

section Scans

open LocalDeque (Rep)

variable {t : CartesianTree} {capacity j : Nat} {d : LocalDeque Slot} {l : List Slot}

theorem numNodes_pos {u : BinaryTree CartesianNode} (h : u ≠ .nil) : 1 ≤ u.numNodes := by
  cases u with
  | nil => exact absurd rfl h
  | node n l r => rw [BinaryTree.numNodes]; omega

theorem fits_ne_nil {num : Nat} {u : BinaryTree CartesianNode} (h : fits num u = true) :
    u ≠ .nil := by
  rintro rfl
  exact absurd h Bool.false_ne_true

/-- Slots of nodes are no more than the nodes below them. -/
theorem length_le_pending {slots : List Slot} (h : ∀ q ∈ slots, subtree t.root q ≠ .nil) :
    slots.length ≤ t.pending slots := by
  induction slots with
  | nil => exact Nat.le_refl 0
  | cons q slots ih =>
    have hrest := ih fun p hp => h p (List.mem_cons_of_mem q hp)
    have hq := numNodes_pos (h q List.mem_cons_self)
    rw [pending_cons, List.length_cons]
    omega

theorem pushIf_spec {α : Type} (cond : Prop) [Decidable cond] {d : LocalDeque α} {l : List α}
    (h : Rep capacity d j l) (v : α) (hroom : cond → j + l.length < capacity) :
    ∃ d', pushIf cond d v = .ok d' ∧ Rep capacity d' j (l ++ if cond then [v] else []) := by
  by_cases hc : cond
  · obtain ⟨d', hres, hrep⟩ := h.push v (hroom hc)
    exact ⟨d', by rw [pushIf, if_pos hc, hres, ofDeque_ok], by rw [if_pos hc]; exact hrep⟩
  · exact ⟨d, by rw [pushIf, if_neg hc], by rw [if_neg hc, List.append_nil]; exact h⟩

/-- `Next` of an exhausted iterator. -/
theorem forwardNext_nil (h : Rep capacity d j []) : t.forwardNext d = .ok (none, d) := by
  rw [forwardNext, if_pos (h.isEmpty_iff.mpr rfl)]

/-- **`Next`** hands out the first slot and queues its children.  The slots handed out and the
    nodes still to come together fit the mapping. -/
theorem forwardNext_spec {s : Slot} {queue : List Slot} {n : CartesianNode}
    {l r : BinaryTree CartesianNode} (h : Rep capacity d j (s :: queue))
    (hs : subtree t.root s = .node n l r) (hqueue : ∀ q ∈ queue, subtree t.root q ≠ .nil)
    (hroom : j + t.pending (s :: queue) ≤ capacity) :
    ∃ d', t.forwardNext d = .ok (some s, d') ∧
      Rep capacity d' (j + 1) (queue ++ childSlots s l r) := by
  have hlen := length_le_pending hqueue
  rw [pending_cons, hs, BinaryTree.numNodes] at hroom
  obtain ⟨d₁, hres₁, hrep₁⟩ := pushIf_spec (r ≠ .nil) h (s ++ [.right]) fun hr => by
    have := numNodes_pos hr
    rw [List.length_cons]
    omega
  obtain ⟨d₂, hres₂, hrep₂⟩ := pushIf_spec (l ≠ .nil) hrep₁ (s ++ [.left]) fun hl => by
    have hl := numNodes_pos hl
    rw [List.length_append, List.length_cons]
    split
    case isTrue hr =>
      have hr := numNodes_pos hr
      rw [List.length_singleton]
      omega
    case isFalse =>
      rw [List.length_nil]
      omega
  have hempty : ¬ d.isEmpty = true := fun hc => absurd (h.isEmpty_iff.mp hc) (List.cons_ne_nil s _)
  refine ⟨d₂.popFront, ?_, ?_⟩
  · rw [forwardNext, if_neg hempty, h.frontValue]
    simp only [ofDeque_ok, bind, Except.bind, hs, hres₁, hres₂]
  · have hsplit : (s :: queue ++ if r ≠ .nil then [s ++ [.right]] else []) ++
        (if l ≠ .nil then [s ++ [.left]] else []) = s :: (queue ++ childSlots s l r) := by
      rw [childSlots, List.append_assoc, List.cons_append]
    rw [hsplit] at hrep₂
    exact hrep₂.popFront

/-- The loop of `TakeUnitsImpl` over the deque. -/
theorem lastFittingScan_eq (num fuel : Nat) : ∀ (queue : List Slot) (d : LocalDeque Slot) (j : Nat)
    (nodeSlot : Slot), Rep capacity d j queue → t.pending queue ≤ fuel →
    (∀ q ∈ queue, subtree t.root q ≠ .nil) → j + t.pending queue ≤ capacity →
    t.lastFittingScan num (fuel + 1) d nodeSlot = ofTree (t.lastFitting num fuel queue nodeSlot) := by
  induction fuel with
  | zero =>
    intro queue d j nodeSlot hrep hfuel hqueue hroom
    have hnil : queue = [] := by
      have := length_le_pending hqueue
      exact List.length_eq_zero_iff.mp (by omega)
    subst hnil
    rw [lastFittingScan, forwardNext_nil hrep]
    rfl
  | succ fuel ih =>
    intro queue d j nodeSlot hrep hfuel hqueue hroom
    cases queue with
    | nil =>
      rw [lastFittingScan, forwardNext_nil hrep]
      rfl
    | cons s queue =>
      have hqueue' : ∀ q ∈ queue, subtree t.root q ≠ .nil := fun q hq =>
        hqueue q (List.mem_cons_of_mem s hq)
      cases hs : subtree t.root s with
      | nil => exact absurd hs (hqueue s List.mem_cons_self)
      | node n l r =>
        obtain ⟨d', hres, hrep'⟩ := forwardNext_spec hrep hs hqueue' hroom
        rw [pending_cons, hs, BinaryTree.numNodes] at hfuel hroom
        rw [lastFittingScan, hres, lastFitting]
        simp only [bind, Except.bind, hs]
        by_cases hlt : n.count < num
        · rw [if_pos hlt, if_pos hlt, ofTree_ok]
        · rw [if_neg hlt, if_neg hlt]
          obtain ⟨hchild, hnodes⟩ := childSlots_spec hs
          refine ih _ d' (j + 1) s hrep' ?_ ?_ ?_
          · rw [pending_append, hchild]
            omega
          · intro q hq
            rcases List.mem_append.mp hq with hq | hq
            · exact hqueue' q hq
            · exact hnodes q hq
          · rw [pending_append, hchild]
            omega

/-- **`TakeUnitsImpl`** over the deque.  The queue stops at the first node that is too small, and
    each node is in it once at most, so that the number of nodes bounds the deque. -/
theorem takeUnitsImplScan_eq {sud : SingleUseDeque} (hsud : sud.Mapped capacity)
    (hnodes : t.root.numNodes ≤ capacity) (mapping : Nat → Slot) (num : Nat) (f : Bool) :
    t.takeUnitsImplScan sud mapping num f = ofTree (t.takeUnitsImpl num f) := by
  have hinit := LocalDeque.rep_init hsud mapping []
  cases hroot : t.root with
  | nil =>
    rw [takeUnitsImplScan, forwardIterator, hroot, if_neg (not_not.mpr rfl), takeUnitsImpl, hroot]
    simp only [bind, Except.bind, forwardNext_nil hinit, ofTree_ok]
  | node n l r =>
    have hsub : subtree t.root [] = .node n l r := by rw [subtree_root, hroot]
    have hpending : t.pending [[]] = t.root.numNodes := by
      rw [pending_cons, pending_nil, subtree_root, Nat.add_zero]
    have hpos : 0 < t.root.numNodes := by rw [hroot, BinaryTree.numNodes]; omega
    obtain ⟨d₁, hres₁, hrep₁⟩ := hinit.push [] (by rw [List.length_nil]; omega)
    obtain ⟨d₂, hres₂, hrep₂⟩ := forwardNext_spec (t := t) hrep₁ hsub
      (fun q hq => absurd hq List.not_mem_nil) (by rw [hpending]; omega)
    obtain ⟨hchild, hslots⟩ := childSlots_spec hsub
    have hsize : t.root.numNodes = l.numNodes + r.numNodes + 1 := by
      rw [hroot, BinaryTree.numNodes]
    have hscan := lastFittingScan_eq (t := t) num t.root.numNodes (childSlots [] l r) d₂ 1 [] hrep₂
      (by omega) hslots (by omega)
    have htake : t.takeUnitsImpl num f = if n.count < num then .ok (t, none) else
        (t.lastFitting num t.root.numNodes (childSlots [] l r) []).bind fun nodeSlot =>
          (t.takeFront nodeSlot num f).bind fun x => .ok (x.1, some x.2) := by
      rw [takeUnitsImpl]
      simp only [hroot]
      rfl
    rw [takeUnitsImplScan, forwardIterator, if_pos (by rw [hroot]; exact nofun), hres₁, htake]
    simp only [ofDeque_ok, bind, Except.bind, hres₂, hsub]
    by_cases hlt : n.count < num
    · rw [if_pos hlt, if_pos hlt, ofTree_ok]
    · rw [if_neg hlt, if_neg hlt, hscan]
      cases t.lastFitting num t.root.numNodes (childSlots [] l r) [] with
      | error e => rfl
      | ok nodeSlot =>
        simp only [ofTree_ok]
        cases t.takeFront nodeSlot num f with
        | error e => rfl
        | ok x => rfl

/-! ## The stack of the descent -/

/-- The first loop of `MergeInsertInternal` over the deque: the same result, and the same stack. -/
theorem mergeDescendScan_eq (idx num : Nat) (f : Bool) (s : BinaryTree CartesianNode) :
    ∀ (q : Slot) (stack : List Slot) (d : LocalDeque Slot), Rep capacity d 0 stack.reverse →
      stack.length + s.numNodes ≤ capacity →
      (∃ e, t.mergeDescend idx num f s q stack = .error e ∧
        t.mergeDescendScan idx num f s q d = .error (.tree e)) ∨
      (t.mergeDescend idx num f s q stack = .ok none ∧
        t.mergeDescendScan idx num f s q d = .ok none) ∨
      ∃ t' stack' d', t.mergeDescend idx num f s q stack = .ok (some (t', stack')) ∧
        t.mergeDescendScan idx num f s q d = .ok (some (t', d')) ∧
        Rep capacity d' 0 stack'.reverse ∧ stack'.length ≤ stack.length + s.numNodes := by
  induction s with
  | nil =>
    intro q stack d hrep hroom
    exact Or.inr (Or.inr ⟨_, stack, d, rfl, rfl, hrep, Nat.le_add_right _ _⟩)
  | node n l r ihl ihr =>
    intro q stack d hrep hroom
    rw [BinaryTree.numNodes] at hroom
    obtain ⟨d', hpush, hrep'⟩ := hrep.push q (by rw [List.length_reverse]; omega)
    rw [← List.reverse_cons] at hrep'
    have hlen : (q :: stack).length = stack.length + 1 := rfl
    rw [mergeDescend, mergeDescendScan, BinaryTree.numNodes]
    cases hmerge : t.mergeAt q n idx num f with
    | error e => exact Or.inl ⟨e, rfl, rfl⟩
    | ok x =>
      obtain ⟨t', result⟩ := x
      cases result with
      | success => exact Or.inr (Or.inr ⟨t', stack, d, rfl, rfl, hrep, by omega⟩)
      | error => exact Or.inr (Or.inl ⟨rfl, rfl⟩)
      | miss =>
        simp only [ofTree_ok, bind, Except.bind, hpush, ofDeque_ok]
        by_cases hleft : Words.add 32 idx num < n.index
        · rw [if_pos hleft, if_pos hleft]
          rcases ihl (q ++ [.left]) (q :: stack) d' hrep' (by omega) with
            h | h | ⟨t'', stack'', d'', h₁, h₂, h₃, h₄⟩
          · exact Or.inl h
          · exact Or.inr (Or.inl h)
          · exact Or.inr (Or.inr ⟨t'', stack'', d'', h₁, h₂, h₃, by omega⟩)
        · rw [if_neg hleft, if_neg hleft]
          by_cases hright : Words.add 32 n.index n.count < idx
          · rw [if_pos hright, if_pos hright]
            rcases ihr (q ++ [.right]) (q :: stack) d' hrep' (by omega) with
              h | h | ⟨t'', stack'', d'', h₁, h₂, h₃, h₄⟩
            · exact Or.inl h
            · exact Or.inr (Or.inl h)
            · exact Or.inr (Or.inr ⟨t'', stack'', d'', h₁, h₂, h₃, by omega⟩)
          · rw [if_neg hright, if_neg hright]
            exact Or.inr (Or.inl ⟨rfl, rfl⟩)

/-- The second loop of `MergeInsertInternal` over the deque. -/
theorem mergeRebalanceScan_eq (idx endIdx : Nat) (stack : List Slot) :
    ∀ (d : LocalDeque Slot) (t : CartesianTree) (fuel : Nat), Rep capacity d 0 stack.reverse →
      stack.length < fuel →
      mergeRebalanceScan idx endIdx fuel d t = ofTree (mergeRebalance idx endIdx stack t) := by
  induction stack with
  | nil =>
    intro d t fuel hrep hfuel
    obtain ⟨fuel, rfl⟩ : ∃ k, fuel = k + 1 := ⟨fuel - 1, by omega⟩
    rw [mergeRebalanceScan, if_pos (hrep.isEmpty_iff.mpr rfl)]
    rfl
  | cons q stack ih =>
    intro d t fuel hrep hfuel
    obtain ⟨fuel, rfl⟩ : ∃ k, fuel = k + 1 := ⟨fuel - 1, by omega⟩
    rw [List.reverse_cons] at hrep
    have hfuel' : stack.length < fuel := Nat.lt_of_succ_lt_succ hfuel
    have hempty : ¬ d.isEmpty = true := fun hc =>
      absurd (hrep.isEmpty_iff.mp hc) (List.concat_ne_nil q _)
    have hrest : ∀ t', mergeRebalanceScan idx endIdx fuel d.pop t' =
        ofTree (mergeRebalance idx endIdx stack t') := fun t' => ih d.pop t' fuel hrep.pop hfuel'
    rw [mergeRebalanceScan, if_neg hempty, hrep.topValue, mergeRebalance]
    simp only [ofDeque_ok, bind, Except.bind]
    cases subtree t.root q with
    | nil => rfl
    | node n l r =>
      simp only
      split
      -- the slot lies on the left: the left child comes up if it is larger
      case isTrue hleft =>
        cases l with
        | nil => rfl
        | node left ll lr =>
          simp only
          split
          case isTrue hlt =>
            rw [rotateLeftChild]
            exact hrest _
          case isFalse => rfl
      case isFalse hleft =>
        split
        -- on the right, the same with the right child
        case isTrue hright =>
          cases r with
          | nil => rfl
          | node right rl rr =>
            simp only
            split
            case isTrue hlt =>
              rw [rotateRightChild]
              exact hrest _
            case isFalse => rfl
        case isFalse => rfl

/-- **`MergeInsertInternal`** over the deque.  The slots of the path are on the stack, and the way
    back takes them from its end. -/
theorem mergeInsertInternalScan_eq {sud : SingleUseDeque} (hsud : sud.Mapped capacity)
    (hnodes : t.root.numNodes ≤ capacity) (mapping : Nat → Slot) (idx num : Nat) (f : Bool) :
    t.mergeInsertInternalScan sud mapping idx num f = ofTree (t.mergeInsertInternal idx num f) := by
  have hinit := LocalDeque.rep_init hsud mapping []
  rw [mergeInsertInternalScan, mergeInsertInternal]
  rcases mergeDescendScan_eq (t := t) idx num f t.root [] [] _ hinit
    (by rw [List.length_nil]; omega) with
    ⟨e, h₁, h₂⟩ | ⟨h₁, h₂⟩ | ⟨t', stack, d, h₁, h₂, hrep, hlen⟩
  · rw [h₁, h₂]
    rfl
  · rw [h₁, h₂]
    rfl
  · rw [h₁, h₂]
    rw [List.length_nil] at hlen
    exact mergeRebalanceScan_eq idx _ stack d t' _ hrep (by omega)

/-! ## The stack of the best-fit search -/

/-- The stack after the children that fit have been pushed, right before left. -/
theorem fitting_spec {q : Slot} {n : CartesianNode} {l r : BinaryTree CartesianNode}
    {stack : List Slot} (num : Nat) (hq : subtree t.root q = .node n l r) (right : Bool)
    (hstack : ∀ p ∈ stack, subtree t.root p ≠ .nil) :
    let slots := (if fits num l then [q ++ [.left]] else []) ++
      (if right && fits num r then [q ++ [.right]] else []) ++ stack
    t.pending slots ≤ l.numNodes + r.numNodes + t.pending stack ∧
      ∀ p ∈ slots, subtree t.root p ≠ .nil := by
  obtain ⟨hl, hr⟩ := subtree_child hq
  refine ⟨?_, fun p hp => ?_⟩
  · rw [pending_append, pending_append]
    have hleft : t.pending (if fits num l then [q ++ [.left]] else []) ≤ l.numNodes := by
      split
      · rw [pending_cons, pending_nil, hl, Nat.add_zero]
      · exact Nat.zero_le _
    have hright : t.pending (if right && fits num r then [q ++ [.right]] else []) ≤ r.numNodes := by
      split
      · rw [pending_cons, pending_nil, hr, Nat.add_zero]
      · exact Nat.zero_le _
    omega
  · rcases List.mem_append.mp hp with hp | hp
    · rcases List.mem_append.mp hp with hp | hp
      · split at hp
        case isTrue hfit =>
          rw [List.mem_singleton.mp hp, hl]
          exact fits_ne_nil hfit
        case isFalse => exact absurd hp List.not_mem_nil
      · split at hp
        case isTrue hfit =>
          rw [List.mem_singleton.mp hp, hr]
          exact fits_ne_nil (Bool.and_eq_true_iff.mp hfit).2
        case isFalse => exact absurd hp List.not_mem_nil
    · exact hstack p hp

/-- Pushing a slot on the deque is pushing it on the stack. -/
theorem pushIf_stack (cond : Prop) [Decidable cond] {stack : List Slot}
    (h : Rep capacity d 0 stack.reverse) (slot : Slot) (hroom : stack.length < capacity) :
    ∃ d', pushIf cond d slot = .ok d' ∧
      Rep capacity d' 0 ((if cond then [slot] else []) ++ stack).reverse := by
  obtain ⟨d', hres, hrep⟩ := pushIf_spec cond h slot fun _ => by
    rw [List.length_reverse]
    omega
  refine ⟨d', hres, ?_⟩
  rw [List.reverse_append]
  by_cases hc : cond
  · rw [if_pos hc] at hrep ⊢
    exact hrep
  · rw [if_neg hc] at hrep ⊢
    exact hrep

/-- The loop of `FindBestFitLowAddrPtr` over the deque. -/
theorem bestFitLoopScan_eq (num fuel : Nat) : ∀ (stack : List Slot) (d : LocalDeque Slot)
    (best : Option Slot), Rep capacity d 0 stack.reverse → t.pending stack ≤ fuel →
    (∀ q ∈ stack, subtree t.root q ≠ .nil) → t.pending stack ≤ capacity →
    t.bestFitLoopScan num (fuel + 1) d best = ofTree (t.bestFitLoop num fuel stack best) := by
  induction fuel with
  | zero =>
    intro stack d best hrep hfuel hstack hroom
    have hnil : stack = [] := by
      have := length_le_pending hstack
      exact List.length_eq_zero_iff.mp (by omega)
    subst hnil
    rw [bestFitLoopScan, if_pos (hrep.isEmpty_iff.mpr rfl)]
    rfl
  | succ fuel ih =>
    intro stack d best hrep hfuel hstack hroom
    cases stack with
    | nil =>
      rw [bestFitLoopScan, if_pos (hrep.isEmpty_iff.mpr rfl)]
      rfl
    | cons q stack =>
      have hstack' : ∀ p ∈ stack, subtree t.root p ≠ .nil := fun p hp =>
        hstack p (List.mem_cons_of_mem q hp)
      have hlen := length_le_pending hstack'
      rw [List.reverse_cons] at hrep
      have hpop := hrep.pop
      have hempty : ¬ d.isEmpty = true := fun hc =>
        absurd (hrep.isEmpty_iff.mp hc) (List.concat_ne_nil q _)
      rw [bestFitLoopScan, if_neg hempty, hrep.topValue, bestFitLoop]
      simp only [ofDeque_ok, bind, Except.bind]
      cases hq : subtree t.root q with
      | nil => exact absurd hq (hstack q List.mem_cons_self)
      | node n l r =>
        obtain ⟨hl, hr⟩ := subtree_child hq
        rw [pending_cons, hq, BinaryTree.numNodes] at hfuel hroom
        simp only
        -- a node that is too small is passed, with all below it
        split
        case isTrue hlt => exact ih stack d.pop best hpop (by omega) hstack' (by omega)
        case isFalse hlt =>
          cases t.bestNodeOf best n with
          | error e => rfl
          | ok bestNode =>
            simp only [ofTree_ok]
            generalize (if best = none ∨ n.count < bestNode.count ∨
              (n.count = bestNode.count ∧ n.index < bestNode.index) then some q else best) = best'
            generalize (if best = none ∨ n.count < bestNode.count ∨
              (n.count = bestNode.count ∧ n.index < bestNode.index) then n else bestNode) = node'
            -- after an exact fit only lower addresses can be better
            split
            case isTrue hexact =>
              obtain ⟨hweight, hslots⟩ := fitting_spec num hq false hstack'
              simp only [Bool.false_and, Bool.false_eq_true, if_false, List.append_nil]
                at hweight hslots
              obtain ⟨d₁, hres₁, hrep₁⟩ := pushIf_stack (fits num l = true) hpop
                (q ++ [.left]) (by omega)
              rw [hres₁]
              exact ih _ d₁ best' hrep₁ (by omega) hslots (by omega)
            case isFalse hexact =>
              obtain ⟨hweight, hslots⟩ := fitting_spec num hq true hstack'
              simp only [Bool.true_and] at hweight hslots
              obtain ⟨d₁, hres₁, hrep₁⟩ := pushIf_stack (fits num r = true) hpop
                (q ++ [.right]) (by omega)
              have hlen₁ : ((if fits num r then [q ++ [Side.right]] else []) ++ stack).length ≤
                  r.numNodes + stack.length := by
                rw [List.length_append]
                split
                case isTrue hr =>
                  have := numNodes_pos (fits_ne_nil hr)
                  rw [List.length_singleton]
                  omega
                case isFalse => exact Nat.add_le_add_right (Nat.zero_le _) _
              obtain ⟨d₂, hres₂, hrep₂⟩ := pushIf_stack (fits num l = true) hrep₁
                (q ++ [.left]) (by omega)
              rw [hres₁]
              simp only
              rw [hres₂]
              rw [← List.append_assoc] at hrep₂
              exact ih _ d₂ best' hrep₂ (by omega) hslots (by omega)

/-- **`FindBestFitLowAddrPtr`** over the deque.  Each node is pushed once, so that the number of
    nodes bounds the deque. -/
theorem findBestFitLowAddrPtrScan_eq {sud : SingleUseDeque} (hsud : sud.Mapped capacity)
    (hnodes : t.root.numNodes ≤ capacity) (mapping : Nat → Slot) (num : Nat)
    (initialBest : Option Slot) :
    t.findBestFitLowAddrPtrScan sud mapping (some []) num initialBest =
      ofTree (t.findBestFitLowAddrPtr (some []) num initialBest) := by
  have hinit : Rep capacity (LocalDeque.init sud mapping []) 0 ([] : List Slot).reverse :=
    LocalDeque.rep_init hsud mapping []
  rw [findBestFitLowAddrPtrScan, findBestFitLowAddrPtr]
  simp only
  by_cases hfit : fits num (subtree t.root []) = true
  · have hne : subtree t.root [] ≠ .nil := fits_ne_nil hfit
    have hweight : t.pending [[]] = t.root.numNodes := by
      rw [pending_cons, pending_nil, subtree_root, Nat.add_zero]
    have hpos : 1 ≤ t.root.numNodes := numNodes_pos (by rw [← subtree_root t.root]; exact hne)
    obtain ⟨d', hres, hrep⟩ := pushIf_stack (fits num (subtree t.root []) = true) hinit []
      (by rw [List.length_nil]; omega)
    rw [hres, if_pos hfit]
    rw [if_pos hfit, List.append_nil] at hrep
    exact bestFitLoopScan_eq num _ [[]] d' initialBest hrep (by omega)
      (fun q hq => by rw [List.mem_singleton.mp hq]; exact hne) (by omega)
  · rw [pushIf, if_neg hfit, if_neg hfit]
    exact bestFitLoopScan_eq num _ [] _ initialBest hinit (Nat.zero_le _)
      (fun q hq => absurd hq List.not_mem_nil) (Nat.zero_le _)

end Scans

end CartesianTree

end CangjieRuntime.Heap
