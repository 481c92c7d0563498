/-
  The Cartesian tree of free unit blocks (`rt.heap.allocator/CartesianTree.cj`).

  A node holds one free block `[index, index + count)`.  The tree is a search tree on `index` and a
  max-heap on `count`; the code edits it in place through `Node**` slots.  The embedding:

    * a slot is the path from the root field (`SlotTree.Slot`), a node pointer is the slot it is
      read through, and comparing two node pointers compares the storage addresses;
    * `Index` and `Count` are 32-bit words with wrapping arithmetic (`Words.add 32`, ...);
    * `RTAllocatorT` is the bump pointer with its intrusive free list of 24-byte slots;
    * the calls into `RegionInfo` are recorded in order, so that the side table they write can be
      rebuilt from the record;
    * `abort()`, a read through a null pointer and a loop that does not end are the `Fault`s.

  The loops whose measure is not visible in the source take `fuel`; the callers hand them the node
  count of the tree, and the specifications show that it is enough.
-/
import CangjieRuntime.Lib.SlotTree
import CangjieRuntime.Lib.Words

set_option linter.unusedVariables false

namespace CangjieRuntime.Heap

open SlotTree

/-- What stops an operation: `abort()`, `RtFatal`, a null dereference, a loop that has not
    ended. -/
inductive Fault
  | abort
  | fatal
  | nullDeref
  | outOfFuel
  deriving DecidableEq, Repr

/-- `CartesianNode`, without its two child pointers: they are the tree's structure.  `addr` is the
    storage the node was placed in. -/
structure CartesianNode where
  addr : Nat
  index : Nat
  count : Nat
  deriving DecidableEq, Repr

/-- A call into `RegionInfo`, with the arguments it was made with. -/
inductive RegionCall
  | initFreeRegion (idx num : Nat)
  | releaseUnits (idx cnt : Nat)
  deriving DecidableEq, Repr

/-! ## The node allocator -/

/-- `RTAllocatorT`: the intrusive free list, head first, and the bump address. -/
structure RTAllocator where
  head : List Nat
  currAddr : Nat
  deriving DecidableEq, Repr

/-- `Allocate`: pop the free list, or bump by the size of a slot. -/
def RTAllocator.allocate (a : RTAllocator) : Nat × RTAllocator :=
  match a.head with
  | [] => (a.currAddr, { a with currAddr := a.currAddr + 24 })
  | result :: head => (result, { a with head := head })

/-- `Deallocate`: push the slot onto the free list. -/
def RTAllocator.deallocate (a : RTAllocator) (address : Nat) : RTAllocator :=
  { a with head := address :: a.head }

/-! ## The tree record -/

/-- `CartesianTree`: the total, the root and the node allocator, with the record of the calls
    made into `RegionInfo`. -/
structure CartesianTree where
  totalCount : Nat
  root : BinaryTree CartesianNode
  nodeAllocator : RTAllocator
  regionCalls : List RegionCall
  deriving DecidableEq, Repr

namespace CartesianTree

/-- `CartesianTree()` followed by `Init`: empty, with the pool starting at `base`. -/
def init (base : Nat) : CartesianTree :=
  { totalCount := 0, root := .nil, nodeAllocator := ⟨[], base⟩, regionCalls := [] }

/-- Write `s` through a slot. -/
def write (t : CartesianTree) (slot : Slot) (s : BinaryTree CartesianNode) : CartesianTree :=
  { t with root := graft t.root slot s }

/-- Record a call into `RegionInfo`. -/
def call (t : CartesianTree) (c : RegionCall) : CartesianTree :=
  { t with regionCalls := t.regionCalls ++ [c] }

/-- `RefreshFreeRegionInfo` of a node with these fields, under a condition. -/
def refreshIf (t : CartesianTree) (cond : Bool) (idx cnt : Nat) : CartesianTree :=
  if cond then t.call (.initFreeRegion idx cnt) else t

/-- The address a slot holds; 0 is the null pointer. -/
def addrAt (t : CartesianTree) (slot : Slot) : Nat :=
  match subtree t.root slot with
  | .nil => 0
  | .node n _ _ => n.addr

def allocate (t : CartesianTree) : Nat × CartesianTree :=
  (t.nodeAllocator.allocate.1, { t with nodeAllocator := t.nodeAllocator.allocate.2 })

def deallocate (t : CartesianTree) (address : Nat) : CartesianTree :=
  { t with nodeAllocator := t.nodeAllocator.deallocate address }

def incTotalCount (t : CartesianTree) (cnt : Nat) : CartesianTree :=
  { t with totalCount := Words.add 32 t.totalCount cnt }

/-- `DecTotalCount`: aborts rather than going below zero. -/
def decTotalCount (t : CartesianTree) (cnt : Nat) : Except Fault CartesianTree :=
  if t.totalCount < cnt then .error .abort
  else .ok { t with totalCount := Words.sub 32 t.totalCount cnt }

/-! ## Node operations -/

/-- `CartesianNode(idx, num, refreshRegionInfo)` in fresh storage, hung from `slot`. -/
def createNode (t : CartesianTree) (slot : Slot) (idx num : Nat) (refreshRegionInfo : Bool) :
    CartesianTree :=
  let (addr, t) := t.allocate
  (t.refreshIf refreshRegionInfo idx num).write slot (.node ⟨addr, idx, num⟩ .nil .nil)

/-- `IncCount` of the node in `slot`. -/
def incCount (t : CartesianTree) (slot : Slot) (num : Nat) (refreshRegionInfo : Bool) :
    Except Fault CartesianTree :=
  match subtree t.root slot with
  | .nil => .error .nullDeref
  | .node n l r =>
    let newCount := Words.add 32 n.count num
    let t := t.write slot (.node { n with count := newCount } l r)
    .ok (t.refreshIf (refreshRegionInfo && 0 < newCount) n.index newCount)

/-- `UpdateNode` of the node in `slot`. -/
def updateNode (t : CartesianTree) (slot : Slot) (idx cnt : Nat) (refreshRegionInfo : Bool) :
    Except Fault CartesianTree :=
  match subtree t.root slot with
  | .nil => .error .nullDeref
  | .node n l r =>
    let t := t.write slot (.node { n with index := idx, count := cnt } l r)
    .ok (t.refreshIf (refreshRegionInfo && 0 < cnt) idx cnt)

/-- The count of a child, 0 when there is none. -/
def countOrZero : BinaryTree CartesianNode → Nat
  | .nil => 0
  | .node n _ _ => n.count

/-- `IsProperNode`: the node's count is at least its children's. -/
def isProperNode (n : CartesianNode) (l r : BinaryTree CartesianNode) : Bool :=
  countOrZero l ≤ n.count && countOrZero r ≤ n.count

/-- `RotateLeftChild`: the left child becomes the root. -/
def rotateLeftChild : BinaryTree CartesianNode → Except Fault (BinaryTree CartesianNode)
  | .node n (.node newRoot ll lr) r => .ok (.node newRoot ll (.node n lr r))
  | _ => .error .nullDeref

/-- `RotateRightChild`: the right child becomes the root. -/
def rotateRightChild : BinaryTree CartesianNode → Except Fault (BinaryTree CartesianNode)
  | .node n l (.node newRoot rl rr) => .ok (.node newRoot (.node n l rl) rr)
  | _ => .error .nullDeref

/-! ## Merging a block in -/

/-- `MergeResult`: whether a range was merged into a node, lies apart from it, or overlaps it. -/
inductive MergeResult
  | success
  | miss
  | error
  deriving DecidableEq, Repr

/-- The search loop of `MergeToRight`: down the left spine to the block that starts at `endIdx`.
    `none` is `MERGE_ERROR`; otherwise the slots of the last `parent` and of `nearest`. -/
def nearestRight (endIdx : Nat) : BinaryTree CartesianNode → Slot → Slot → Option (Slot × Slot)
  | .nil, parent, nearest => some (parent, nearest)
  | .node a l _, parent, nearest =>
    if a.index = endIdx then
      if l ≠ .nil then none else some (parent, nearest)
    else if a.index < endIdx then none
    else nearestRight endIdx l nearest (nearest ++ [.left])

/-- `MergeToRight`: the block `[endIdx - num, endIdx)` extends the node in `slot` to the right and
    swallows the block that starts at `endIdx`, if there is one. -/
def mergeToRight (t : CartesianTree) (slot : Slot) (endIdx num : Nat) (refreshRegionInfo : Bool) :
    Except Fault (CartesianTree × MergeResult) :=
  match nearestRight endIdx (subtree t.root (slot ++ [.right])) slot (slot ++ [.right]) with
  | none => .ok (t, .error)
  | some (parent, nearest) => do
    let t ← t.incCount slot num refreshRegionInfo
    let t := t.incTotalCount num
    match subtree t.root nearest with
    | .nil => .ok (t, .success)
    | .node near _ nearRight =>
      let t ← t.incCount slot near.count refreshRegionInfo
      let t := if t.addrAt parent = t.addrAt slot then t.write (slot ++ [.right]) nearRight
        else t.write (parent ++ [.left]) nearRight
      .ok (t.deallocate near.addr, .success)

/-- The search loop of `MergeToLeft`: down the right spine to the block that ends at `startIdx`. -/
def nearestLeft (startIdx : Nat) : BinaryTree CartesianNode → Slot → Slot → Option (Slot × Slot)
  | .nil, parent, nearest => some (parent, nearest)
  | .node a _ r, parent, nearest =>
    if Words.add 32 a.index a.count = startIdx then
      if r ≠ .nil then none else some (parent, nearest)
    else if startIdx < Words.add 32 a.index a.count then none
    else nearestLeft startIdx r nearest (nearest ++ [.right])

/-- `MergeToLeft`: the block `[startIdx, startIdx + num)` extends the node in `slot` to the left
    and swallows the block that ends at `startIdx`, if there is one. -/
def mergeToLeft (t : CartesianTree) (slot : Slot) (startIdx num : Nat) (refreshRegionInfo : Bool) :
    Except Fault (CartesianTree × MergeResult) :=
  match nearestLeft startIdx (subtree t.root (slot ++ [.left])) slot (slot ++ [.left]) with
  | none => .ok (t, .error)
  | some (parent, nearest) =>
    match subtree t.root slot with
    | .nil => .error .nullDeref
    | .node n _ _ => do
      let t ← t.updateNode slot startIdx (Words.add 32 n.count num) refreshRegionInfo
      let t := t.incTotalCount num
      match subtree t.root nearest with
      | .nil => .ok (t, .success)
      | .node near nearLeft _ =>
        let t := if t.addrAt parent = t.addrAt slot then t.write (slot ++ [.left]) nearLeft
          else t.write (parent ++ [.right]) nearLeft
        let t ← t.updateNode slot near.index
          (Words.add 32 (Words.add 32 n.count num) near.count) refreshRegionInfo
        .ok (t.deallocate near.addr, .success)

/-- `MergeAt` the node `n` in `slot`. -/
def mergeAt (t : CartesianTree) (slot : Slot) (n : CartesianNode) (idx num : Nat)
    (refreshRegionInfo : Bool) : Except Fault (CartesianTree × MergeResult) :=
  let endIdx := Words.add 32 idx num
  if idx = Words.add 32 n.index n.count then t.mergeToRight slot endIdx num refreshRegionInfo
  else if endIdx = n.index then t.mergeToLeft slot idx num refreshRegionInfo
  else .ok (t, .miss)

/-- The first loop of `MergeInsertInternal`: walk down from `nodeSlot`, whose content is `node`,
    pushing the slots passed.  `none` is `return false`. -/
def mergeDescend (t : CartesianTree) (idx num : Nat) (refreshRegionInfo : Bool) :
    BinaryTree CartesianNode → Slot → List Slot →
      Except Fault (Option (CartesianTree × List Slot))
  | .nil, nodeSlot, nodeSlotStack =>
    .ok (some ((t.createNode nodeSlot idx num refreshRegionInfo).incTotalCount num, nodeSlotStack))
  | .node n l r, nodeSlot, nodeSlotStack => do
    let (t', result) ← t.mergeAt nodeSlot n idx num refreshRegionInfo
    match result with
    | .success => .ok (some (t', nodeSlotStack))
    | .error => .ok none
    | .miss =>
      if Words.add 32 idx num < n.index then
        mergeDescend t idx num refreshRegionInfo l (nodeSlot ++ [.left])
          (nodeSlot :: nodeSlotStack)
      else if Words.add 32 n.index n.count < idx then
        mergeDescend t idx num refreshRegionInfo r (nodeSlot ++ [.right])
          (nodeSlot :: nodeSlotStack)
      else .ok none

/-- The second loop of `MergeInsertInternal`: back up the stacked slots, rotating the side the
    block went to up while it is larger than the node above it. -/
def mergeRebalance (idx endIdx : Nat) :
    List Slot → CartesianTree → Except Fault (CartesianTree × Bool)
  | [], t => .ok (t, true)
  | nodeSlot :: nodeSlotStack, t =>
    match subtree t.root nodeSlot with
    | .nil => .error .nullDeref
    | .node n l r =>
      if endIdx < n.index then
        match l with
        | .nil => .error .nullDeref
        | .node left _ _ =>
          if n.count < left.count then do
            let newRoot ← rotateLeftChild (.node n l r)
            mergeRebalance idx endIdx nodeSlotStack (t.write nodeSlot newRoot)
          else .ok (t, true)
      else if Words.add 32 n.index n.count < idx then
        match r with
        | .nil => .error .nullDeref
        | .node right _ _ =>
          if n.count < right.count then do
            let newRoot ← rotateRightChild (.node n l r)
            mergeRebalance idx endIdx nodeSlotStack (t.write nodeSlot newRoot)
          else .ok (t, true)
      else .ok (t, false)

/-- `MergeInsertInternal`: down to the place of the range, and up again with rotations. -/
def mergeInsertInternal (t : CartesianTree) (idx num : Nat) (refreshRegionInfo : Bool) :
    Except Fault (CartesianTree × Bool) := do
  match ← t.mergeDescend idx num refreshRegionInfo t.root [] [] with
  | none => .ok (t, false)
  | some (t, nodeSlotStack) => mergeRebalance idx (Words.add 32 idx num) nodeSlotStack t

/-- `MergeInsert`: an empty tree gets a root, and nothing else is done for an empty range. -/
def mergeInsert (t : CartesianTree) (idx num : Nat) (refreshRegionInfo : Bool) :
    Except Fault (CartesianTree × Bool) :=
  match t.root with
  | .nil => .ok ((t.createNode [] idx num refreshRegionInfo).incTotalCount num, true)
  | .node _ _ _ =>
    if num = 0 then .ok (t, false) else t.mergeInsertInternal idx num refreshRegionInfo

/-! ## Restoring the heap order after a node shrank -/

/-- `LowerImproperNodeOnce`: rotate the larger child up; the slot that now holds the node. -/
def lowerImproperNodeOnce (t : CartesianTree) (nodeSlot : Slot) :
    Except Fault (CartesianTree × Slot) :=
  match subtree t.root nodeSlot with
  | .nil => .error .nullDeref
  | .node n l r =>
    match l, r with
    | .node left _ _, .node right _ _ =>
      if left.count ≤ right.count then do
        let newRoot ← rotateRightChild (.node n l r)
        .ok (t.write nodeSlot newRoot, nodeSlot ++ [.left])
      else do
        let newRoot ← rotateLeftChild (.node n l r)
        .ok (t.write nodeSlot newRoot, nodeSlot ++ [.right])
    | .node _ _ _, .nil => do
      let newRoot ← rotateLeftChild (.node n l r)
      .ok (t.write nodeSlot newRoot, nodeSlot ++ [.right])
    | .nil, .node _ _ _ => do
      let newRoot ← rotateRightChild (.node n l r)
      .ok (t.write nodeSlot newRoot, nodeSlot ++ [.left])
    | .nil, .nil => .ok (t, nodeSlot)

/-- `MaintainHeapPropertyForZeroNode`: lower the node until it is a leaf; the slot of the leaf. -/
def maintainHeapPropertyForZeroNode :
    Nat → CartesianTree → Slot → Except Fault (CartesianTree × Slot)
  | 0, _, _ => .error .outOfFuel
  | fuel + 1, t, currentSlot =>
    match subtree t.root currentSlot with
    | .nil => .error .nullDeref
    | .node _ .nil .nil => .ok (t, currentSlot)
    | .node _ _ _ => do
      let (t, currentSlot) ← t.lowerImproperNodeOnce currentSlot
      maintainHeapPropertyForZeroNode fuel t currentSlot

/-- `MaintainHeapPropertyForNonZeroNode`: lower the node until it is proper. -/
def maintainHeapPropertyForNonZeroNode : Nat → CartesianTree → Slot → Except Fault CartesianTree
  | 0, _, _ => .error .outOfFuel
  | fuel + 1, t, currentSlot =>
    match subtree t.root currentSlot with
    | .nil => .error .nullDeref
    | .node n l r =>
      if isProperNode n l r then .ok t
      else do
        let (t, currentSlot) ← t.lowerImproperNodeOnce currentSlot
        maintainHeapPropertyForNonZeroNode fuel t currentSlot

/-- `RemoveZeroNode`: lower the node to a leaf, check that it is one, and unlink it. -/
def removeZeroNode (t : CartesianTree) (nodeSlot : Slot) : Except Fault CartesianTree := do
  let (t, leafSlot) ← maintainHeapPropertyForZeroNode t.root.numNodes t nodeSlot
  match subtree t.root leafSlot with
  | .nil => .error .nullDeref
  | .node leaf leafLeft leafRight =>
    if leafLeft ≠ .nil ∨ leafRight ≠ .nil then .error .abort
    else .ok ((t.deallocate leaf.addr).write leafSlot .nil)

/-- `RemoveNode`: its count is set to 0, and then it is rotated out. -/
def removeNode (t : CartesianTree) (nodeSlot : Slot) : Except Fault CartesianTree :=
  match subtree t.root nodeSlot with
  | .nil => .error .nullDeref
  | .node n l r => do
    let t ← t.decTotalCount n.count
    (t.write nodeSlot (.node { n with count := 0 } l r)).removeZeroNode nodeSlot

/-- `LowerNonZeroNode`: a node whose count fell is rotated down. -/
def lowerNonZeroNode (t : CartesianTree) (nodeSlot : Slot) : Except Fault CartesianTree :=
  maintainHeapPropertyForNonZeroNode t.root.numNodes t nodeSlot

/-! ## Taking units out -/

/-- The tail the three take operations share: cut `num` units off the front of the node in
    `nodeSlot`, then remove the node or lower it. -/
def takeFront (t : CartesianTree) (nodeSlot : Slot) (num : Nat) (refreshRegionInfo : Bool) :
    Except Fault (CartesianTree × Nat) :=
  match subtree t.root nodeSlot with
  | .nil => .error .nullDeref
  | .node n _ _ => do
    let t ← t.updateNode nodeSlot (Words.add 32 n.index num) (Words.sub 32 n.count num)
      refreshRegionInfo
    let t ← t.decTotalCount num
    let t ← if Words.sub 32 n.count num = 0 then t.removeZeroNode nodeSlot
      else t.lowerNonZeroNode nodeSlot
    .ok (t, n.index)

/-- The slots of the children of the node in `slot` that are there, right before left. -/
def childSlots (slot : Slot) (l r : BinaryTree CartesianNode) : List Slot :=
  (if r ≠ .nil then [slot ++ [.right]] else []) ++ (if l ≠ .nil then [slot ++ [.left]] else [])

/-- The loop of `TakeUnitsImpl` over `ForwardIterator`: level by level, right before left, up to
    the first node with fewer than `num` units; the last slot before that one. -/
def lastFitting (t : CartesianTree) (num : Nat) : Nat → List Slot → Slot → Except Fault Slot
  | _, [], nodeSlot => .ok nodeSlot
  | 0, _ :: _, _ => .error .outOfFuel
  | fuel + 1, next :: queue, nodeSlot =>
    match subtree t.root next with
    | .nil => .error .nullDeref
    | .node n l r =>
      if n.count < num then .ok nodeSlot
      else lastFitting t num fuel (queue ++ childSlots next l r) next

/-- `TakeUnitsImpl`; `none` is `return false`. -/
def takeUnitsImpl (t : CartesianTree) (num : Nat) (refreshRegionInfo : Bool) :
    Except Fault (CartesianTree × Option Nat) :=
  match t.root with
  | .nil => .ok (t, none)
  | .node n l r =>
    if n.count < num then .ok (t, none)
    else do
      let nodeSlot ← lastFitting t num t.root.numNodes (childSlots [] l r) []
      let (t, idx) ← t.takeFront nodeSlot num refreshRegionInfo
      .ok (t, some idx)

/-- `TakeUnits`: an empty tree or request yields nothing. -/
def takeUnits (t : CartesianTree) (num : Nat) (refreshRegionInfo : Bool) :
    Except Fault (CartesianTree × Option Nat) :=
  if t.root = .nil ∨ num = 0 then .ok (t, none) else t.takeUnitsImpl num refreshRegionInfo

/-- The child is there and has at least `num` units. -/
def fits (num : Nat) : BinaryTree CartesianNode → Bool
  | .nil => false
  | .node n _ _ => num ≤ n.count

/-- The node in the slot `best`; `currentNode` as long as `best` is null. -/
def bestNodeOf (t : CartesianTree) (best : Option Slot) (currentNode : CartesianNode) :
    Except Fault CartesianNode :=
  match best with
  | none => .ok currentNode
  | some slot =>
    match subtree t.root slot with
    | .nil => .error .nullDeref
    | .node n _ _ => .ok n

/-- The loop of `FindBestFitLowAddrPtr` over its stack, top first. -/
def bestFitLoop (t : CartesianTree) (num : Nat) :
    Nat → List Slot → Option Slot → Except Fault (Option Slot)
  | _, [], best => .ok best
  | 0, _ :: _, _ => .error .outOfFuel
  | fuel + 1, current :: stack, best =>
    match subtree t.root current with
    | .nil => bestFitLoop t num fuel stack best
    | .node n l r =>
      if n.count < num then bestFitLoop t num fuel stack best
      else do
        let bestNode ← t.bestNodeOf best n
        -- the current node replaces the best one on a smaller count, or a lower address
        let better := best = none ∨ n.count < bestNode.count ∨
          (n.count = bestNode.count ∧ n.index < bestNode.index)
        let best := if better then some current else best
        let bestNode := if better then n else bestNode
        let leftSlots := if fits num l then [current ++ [.left]] else []
        let rightSlots := if fits num r then [current ++ [.right]] else []
        if bestNode.count = num then bestFitLoop t num fuel (leftSlots ++ stack) best
        else bestFitLoop t num fuel (leftSlots ++ rightSlots ++ stack) best

/-- `FindBestFitLowAddrPtr`; a null slot pointer is `none`. -/
def findBestFitLowAddrPtr (t : CartesianTree) (nodeSlot : Option Slot) (num : Nat)
    (initialBest : Option Slot) : Except Fault (Option Slot) :=
  let stack := match nodeSlot with
    | none => []
    | some slot => if fits num (subtree t.root slot) then [slot] else []
  bestFitLoop t num t.root.numNodes stack initialBest

/-- `TakeUnitsLowAddrImpl`: the best fit is cut at its front. -/
def takeUnitsLowAddrImpl (t : CartesianTree) (num : Nat) (refreshRegionInfo : Bool) :
    Except Fault (CartesianTree × Option Nat) := do
  match ← t.findBestFitLowAddrPtr (some []) num none with
  | none => .ok (t, none)
  | some nodeSlot =>
    let (t, idx) ← t.takeFront nodeSlot num refreshRegionInfo
    .ok (t, some idx)

/-- `TakeUnitsLowAddr`: an empty tree or request yields nothing. -/
def takeUnitsLowAddr (t : CartesianTree) (num : Nat) (refreshRegionInfo : Bool) :
    Except Fault (CartesianTree × Option Nat) :=
  if t.root = .nil ∨ num = 0 then .ok (t, none) else t.takeUnitsLowAddrImpl num refreshRegionInfo

/-- `AllocateLowestAddressFromNode`: take from the node in `nodeSlot`. -/
def allocateLowestAddressFromNode (t : CartesianTree) (nodeSlot : Slot) (count : Nat) :
    Except Fault (CartesianTree × Option Nat) :=
  match subtree t.root nodeSlot with
  | .nil => .error .nullDeref
  | .node n _ _ =>
    if n.count < count then .ok (t, none)
    else do
      let (t, idx) ← t.takeFront nodeSlot count false
      .ok (t, some idx)

/-! ## Releasing and clearing -/

/-- `ReleaseRootNode`: hand the root's units back to the system and remove it. -/
def releaseRootNode (t : CartesianTree) : Except Fault CartesianTree :=
  match t.root with
  | .nil => .error .nullDeref
  | .node n _ _ => (t.call (.releaseUnits n.index n.count)).removeNode []

/-- The loop of `ClearTree` over `Iterator`: level by level, right before left, freeing every
    node. -/
def clearNodes : Nat → List (BinaryTree CartesianNode) → CartesianTree →
    Except Fault CartesianTree
  | _, [], t => .ok t
  | 0, _ :: _, _ => .error .outOfFuel
  | _ + 1, .nil :: _, _ => .error .nullDeref
  | fuel + 1, .node n l r :: queue, t =>
    clearNodes fuel (queue ++ (if r ≠ .nil then [r] else []) ++ (if l ≠ .nil then [l] else []))
      (t.deallocate n.addr)

/-- `ClearTree`: all nodes are returned to the pool. -/
def clearTree (t : CartesianTree) : Except Fault CartesianTree := do
  let t' ← clearNodes t.root.numNodes (if t.root ≠ .nil then [t.root] else []) t
  .ok { t' with root := .nil, totalCount := 0 }

end CartesianTree

end CangjieRuntime.Heap
