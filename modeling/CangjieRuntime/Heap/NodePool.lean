/-
  The node pool of the tree, in memory (`RTAllocatorT` in `rt.heap.allocator/LocalDeque.cj`).

  `RTAllocatorT` keeps its free slots in a list that is threaded through the slots themselves: the
  first word of a free slot is the address of the next one, and the same word of a slot in use is
  the left child of the node in it.  The model of the tree has the free slots in a list instead.
  Here are the words:

    * `Pool` is the head, the bump address and the two pointer words of every slot;
    * `Chain` reads the list off the words: from the head, over slots that are not null, to null;
    * a client that frees and writes only slots it holds (`Legal`) keeps the chain what the list
      says (`Legal.chain`), whatever it writes.

  `ClearTree` is a client of its own kind: it frees the nodes while it iterates over them, and
  `Deallocate` overwrites the left child of a node that is still linked.  `clearTreeScan` is that
  loop over the words and the deque, and `clearTreeScan_spec` says that it frees every node once.
-/
import CangjieRuntime.Heap.TreeTraversals

set_option linter.unusedVariables false

namespace CangjieRuntime.Heap

open SlotTree

/-! ## The pool -/

/-- `RTAllocatorT`, and the two words at the start of every slot. -/
structure Pool where
  head : Nat
  currAddr : Nat
  left : Nat → Nat
  right : Nat → Nat

namespace Pool

/-- `Allocate`. -/
def allocate (p : Pool) : Nat × Pool :=
  if p.head = 0 then (p.currAddr, { p with currAddr := p.currAddr + 24 })
  else (p.head, { p with head := p.left p.head })

/-- `Deallocate`. -/
def deallocate (p : Pool) (address : Nat) : Pool :=
  { p with left := Function.update p.left address p.head, head := address }

/-- The child fields of the node at `address` are written. -/
def write (p : Pool) (address l r : Nat) : Pool :=
  { p with left := Function.update p.left address l, right := Function.update p.right address r }

/-- What a client does to the pool. -/
inductive Event
  | allocate
  | deallocate (address : Nat)
  | write (address l r : Nat)
  deriving DecidableEq, Repr

/-- An event on the pool. -/
def Event.run (p : Pool) : Event → Pool
  | .allocate => p.allocate.2
  | .deallocate address => p.deallocate address
  | .write address l r => p.write address l r

/-! ## The free list -/

/-- From `a` on, the first words lead over the slots `l` to null. -/
def Chain (left : Nat → Nat) : Nat → List Nat → Prop
  | a, [] => a = 0
  | a, b :: l => a = b ∧ b ≠ 0 ∧ Chain left (left b) l

/-- Writes to other slots do not matter. -/
theorem Chain.frame {left left' : Nat → Nat} {l : List Nat} {a : Nat} (h : Chain left a l)
    (hsame : ∀ b ∈ l, left' b = left b) : Chain left' a l := by
  induction l generalizing a with
  | nil => exact h
  | cons b l ih =>
    obtain ⟨rfl, hne, hrest⟩ := h
    refine ⟨rfl, hne, ?_⟩
    rw [hsame a List.mem_cons_self]
    exact ih hrest fun c hc => hsame c (List.mem_cons_of_mem a hc)

/-- The words and the list agree.  The free list in memory has the slots of the list in order, and
    the bump address is the same. -/
structure Agrees (p : Pool) (a : RTAllocator) : Prop where
  chain : Chain p.left p.head a.head
  currAddr : p.currAddr = a.currAddr

variable {p : Pool} {a : RTAllocator}

/-- **`Allocate`** takes the same slot from both.  If the free list is empty it is a new one, at the
    bump address. -/
theorem Agrees.allocate (h : Agrees p a) :
    p.allocate.1 = a.allocate.1 ∧ Agrees p.allocate.2 a.allocate.2 := by
  have hchain := h.chain
  unfold Pool.allocate RTAllocator.allocate
  cases hhead : a.head with
  | nil =>
    rw [hhead] at hchain
    have hnull : p.head = 0 := hchain
    rw [if_pos hnull]
    exact ⟨h.currAddr, hchain, congrArg (· + 24) h.currAddr⟩
  | cons b l =>
    rw [hhead] at hchain
    obtain ⟨hb, hne, hrest⟩ := hchain
    rw [if_neg (by rw [hb]; exact hne)]
    exact ⟨hb, by simp only [hb]; exact hrest, h.currAddr⟩

/-- **`Deallocate`** of a slot that is in use puts it at the head of both.  Its `left` becomes the
    link; a slot that is in use is not on the list, which therefore stays a chain. -/
theorem Agrees.deallocate (h : Agrees p a) {address : Nat} (hne : address ≠ 0)
    (huse : address ∉ a.head) : Agrees (p.deallocate address) (a.deallocate address) where
  chain := by
    refine ⟨rfl, hne, ?_⟩
    simp only [Pool.deallocate, Function.update_self]
    refine h.chain.frame fun b hb => Function.update_of_ne ?_ _ _
    rintro rfl
    exact huse hb
  currAddr := h.currAddr

/-- A write to a slot that is in use changes neither. -/
theorem Agrees.write (h : Agrees p a) {address : Nat} (huse : address ∉ a.head) (l r : Nat) :
    Agrees (p.write address l r) a where
  chain := by
    refine h.chain.frame fun b hb => Function.update_of_ne ?_ _ _
    rintro rfl
    exact huse hb
  currAddr := h.currAddr

/-! ## Clients -/

/-- A client that holds the slots `live` frees and writes only those. -/
inductive Legal : RTAllocator → List Nat → List Event → RTAllocator → List Nat → Prop
  | nil (a : RTAllocator) (live : List Nat) : Legal a live [] a live
  | allocate {a a' : RTAllocator} {live live' : List Nat} {es : List Event}
      (h : Legal a.allocate.2 (a.allocate.1 :: live) es a' live') :
      Legal a live (.allocate :: es) a' live'
  | deallocate {a a' : RTAllocator} {live live' : List Nat} {es : List Event} {address : Nat}
      (hlive : address ∈ live) (h : Legal (a.deallocate address) (live.erase address) es a' live') :
      Legal a live (.deallocate address :: es) a' live'
  | write {a a' : RTAllocator} {live live' : List Nat} {es : List Event} {address l r : Nat}
      (hlive : address ∈ live) (h : Legal a live es a' live') :
      Legal a live (.write address l r :: es) a' live'

/-- The slots: in use or free, each once, below the bump address, and not null. -/
structure Slots (base : Nat) (a : RTAllocator) (live : List Nat) : Prop where
  pos : 0 < base
  nodup : (live ++ a.head).Nodup
  slot : ∀ x ∈ live ++ a.head, ∃ k, x = base + 24 * k ∧ x < a.currAddr
  count : a.currAddr = base + 24 * (live ++ a.head).length

/-- What is live and what is free may be listed in any order. -/
theorem Slots.perm {base : Nat} {a a' : RTAllocator} {live live' : List Nat}
    (h : Slots base a live) (hp : (live' ++ a'.head).Perm (live ++ a.head))
    (hc : a'.currAddr = a.currAddr) : Slots base a' live' where
  pos := h.pos
  nodup := hp.nodup_iff.mpr h.nodup
  slot := fun x hx => by rw [hc]; exact h.slot x (hp.mem_iff.mp hx)
  count := by rw [hc, hp.length_eq]; exact h.count

/-- An allocation makes a free slot live, or a fresh one. -/
theorem Slots.allocate {base : Nat} {live : List Nat} (h : Slots base a live) :
    Slots base a.allocate.2 (a.allocate.1 :: live) := by
  unfold RTAllocator.allocate
  cases hhead : a.head with
  | nil =>
    have hnodup := h.nodup
    have hslot := h.slot
    have hcount := h.count
    rw [hhead, List.append_nil] at hnodup hslot hcount
    refine ⟨h.pos, ?_, fun x hx => ?_, ?_⟩
    · simp only [List.append_nil]
      refine List.nodup_cons.mpr ⟨fun hmem => ?_, hnodup⟩
      obtain ⟨k, -, hlt⟩ := hslot _ hmem
      exact Nat.lt_irrefl _ hlt
    · simp only [List.append_nil] at hx
      rcases List.mem_cons.mp hx with rfl | hx
      · exact ⟨live.length, hcount, Nat.lt_add_of_pos_right (by decide)⟩
      · obtain ⟨k, hk, hlt⟩ := hslot x hx
        exact ⟨k, hk, Nat.lt_add_right 24 hlt⟩
    · simp only [List.append_nil, List.length_cons]
      omega
  | cons b l => exact h.perm (by rw [hhead]; exact List.perm_middle.symm) rfl

/-- A deallocation makes a live slot free. -/
theorem Slots.deallocate {base : Nat} {live : List Nat} (h : Slots base a live) {address : Nat}
    (hlive : address ∈ live) : Slots base (a.deallocate address) (live.erase address) := by
  refine h.perm ?_ rfl
  have herase := (List.perm_cons_erase hlive).append_right a.head
  exact List.perm_middle.trans herase.symm

/-- A slot in use is not free, and not null. -/
theorem Slots.inUse {base : Nat} {live : List Nat} (h : Slots base a live) {address : Nat}
    (hlive : address ∈ live) : address ∉ a.head ∧ address ≠ 0 := by
  refine ⟨fun hfree => (List.nodup_append'.mp h.nodup).2.2 hlive hfree, ?_⟩
  obtain ⟨k, hk, -⟩ := h.slot address (List.mem_append_left _ hlive)
  have := h.pos
  omega

/-- **Every client.**  The words and the list agree again, and no slot is lost.  What the clients do
    in between to the slots they have does not matter, since the list goes through free slots only.
    -/
theorem Legal.agrees {base : Nat} {a' : RTAllocator} {live live' : List Nat} {es : List Event}
    (hlegal : Legal a live es a' live') (hslots : Slots base a live) (h : Agrees p a) :
    Slots base a' live' ∧ Agrees (es.foldl Event.run p) a' := by
  induction hlegal generalizing p with
  | nil a live => exact ⟨hslots, h⟩
  | allocate _ ih => exact ih hslots.allocate h.allocate.2
  | deallocate hlive _ ih =>
    obtain ⟨hfree, hne⟩ := hslots.inUse hlive
    exact ih (hslots.deallocate hlive) (h.deallocate hne hfree)
  | write hlive _ ih => exact ih hslots (h.write (hslots.inUse hlive).1 _ _)

/-- Freeing slots one after the other. -/
theorem legal_deallocate (freed : List Nat) : ∀ (a : RTAllocator) (live rest : List Nat),
    live.Perm (freed ++ rest) → ∃ live', live'.Perm rest ∧
      Legal a live (freed.map .deallocate) ⟨freed.reverse ++ a.head, a.currAddr⟩ live' := by
  induction freed with
  | nil => exact fun a live rest hperm => ⟨live, hperm, .nil a live⟩
  | cons x freed ih =>
    intro a live rest hperm
    have hx : x ∈ live := hperm.mem_iff.mpr List.mem_cons_self
    have herase : (live.erase x).Perm (freed ++ rest) := by
      have := hperm.erase x
      rwa [List.cons_append, List.erase_cons_head] at this
    obtain ⟨live', hlive', hlegal⟩ := ih (a.deallocate x) (live.erase x) rest herase
    refine ⟨live', hlive', .deallocate hx ?_⟩
    rw [List.reverse_cons, List.append_assoc, List.singleton_append]
    exact hlegal

end Pool

/-! ## `ClearTree` over the words -/

namespace Pool

/-- `Iterator.Next`; the result is null when the queue is empty. -/
def iteratorNext (p : Pool) (localQueue : LocalDeque Nat) :
    Except ScanFault (Nat × LocalDeque Nat) :=
  if localQueue.isEmpty then .ok (0, localQueue)
  else do
    let front ← ofDeque localQueue.frontValue
    let right := p.right front
    let localQueue ← CartesianTree.pushIf (right ≠ 0) localQueue right
    let left := p.left front
    let localQueue ← CartesianTree.pushIf (left ≠ 0) localQueue left
    .ok (front, localQueue.popFront)

/-- The loop of `ClearTree`. -/
def clearLoop : Nat → Pool → LocalDeque Nat → Except ScanFault Pool
  | 0, _, _ => .error (.tree .outOfFuel)
  | fuel + 1, p, localQueue => do
    let (node, localQueue) ← p.iteratorNext localQueue
    if node = 0 then .ok p else clearLoop fuel (p.deallocate node) localQueue

/-- The nodes of `ClearTree` from the root at `root` on. -/
def clearTreeScan (p : Pool) (root fuel : Nat) (traversalSud : SingleUseDeque)
    (mapping : Nat → Nat) : Except ScanFault Pool := do
  let localQueue ← CartesianTree.pushIf (root ≠ 0) (.init traversalSud mapping 0) root
  clearLoop fuel p localQueue

/-- The address of the root; 0 when there is none. -/
def rootAddr : BinaryTree CartesianNode → Nat
  | .nil => 0
  | .node n _ _ => n.addr

/-- The words hold the tree. -/
def Stored (p : Pool) : BinaryTree CartesianNode → Prop
  | .nil => True
  | .node n l r => n.addr ≠ 0 ∧ p.left n.addr = rootAddr l ∧ p.right n.addr = rootAddr r ∧
    Stored p l ∧ Stored p r

/-- The addresses of the nodes of a tree. -/
def addrs (s : BinaryTree CartesianNode) : List Nat := (inorder s).map CartesianNode.addr

/-- They are those of the left subtree, of the node, and of the right subtree. -/
theorem addrs_node (n : CartesianNode) (l r : BinaryTree CartesianNode) :
    addrs (.node n l r) = addrs l ++ n.addr :: addrs r := by
  rw [addrs, inorder_node, List.map_append, List.map_cons]
  rfl

/-- Freeing another slot leaves a tree stored. -/
theorem Stored.deallocate {p : Pool} {s : BinaryTree CartesianNode} (h : p.Stored s) {x : Nat}
    (hx : x ∉ addrs s) : (p.deallocate x).Stored s := by
  induction s with
  | nil => trivial
  | node n l r ihl ihr =>
    obtain ⟨hne, hleft, hright, hl, hr⟩ := h
    rw [addrs_node, List.mem_append, List.mem_cons] at hx
    push Not at hx
    refine ⟨hne, ?_, hright, ihl hl hx.1, ihr hr hx.2.2⟩
    rw [← hleft]
    exact Function.update_of_ne hx.2.1.symm _ _

/-- A tree that is stored is empty exactly if its root is null. -/
theorem Stored.rootAddr_ne {p : Pool} {s : BinaryTree CartesianNode} (h : p.Stored s) :
    rootAddr s ≠ 0 ↔ s ≠ .nil := by
  cases s with
  | nil => exact ⟨fun hne => absurd rfl hne, fun hne => absurd rfl hne⟩
  | node n l r => exact ⟨fun _ => nofun, fun _ => h.1⟩

open LocalDeque (Rep)

/-- A queue has at most as many trees as they have nodes. -/
theorem length_le_sum {queue : List (BinaryTree CartesianNode)} (h : ∀ s ∈ queue, s ≠ .nil) :
    queue.length ≤ (queue.map BinaryTree.numNodes).sum := by
  induction queue with
  | nil => exact Nat.le_refl 0
  | cons s queue ih =>
    have hrest := ih fun u hu => h u (List.mem_cons_of_mem s hu)
    have hs := CartesianTree.numNodes_pos (h s List.mem_cons_self)
    rw [List.map_cons, List.sum_cons, List.length_cons]
    omega

/-- The children of a node that are there. -/
def children (l r : BinaryTree CartesianNode) : List (BinaryTree CartesianNode) :=
  (if r ≠ .nil then [r] else []) ++ (if l ≠ .nil then [l] else [])

/-- The children that are pushed are children that are there. -/
theorem mem_children {l r s : BinaryTree CartesianNode} (h : s ∈ children l r) :
    s ≠ .nil ∧ (s = l ∨ s = r) := by
  rcases List.mem_append.mp h with h | h
  · split at h
    case isTrue hr =>
      rw [List.mem_singleton.mp h]
      exact ⟨hr, Or.inr rfl⟩
    case isFalse => exact absurd h List.not_mem_nil
  · split at h
    case isTrue hl =>
      rw [List.mem_singleton.mp h]
      exact ⟨hl, Or.inl rfl⟩
    case isFalse => exact absurd h List.not_mem_nil

/-- They have all nodes below the node. -/
theorem numNodes_children (l r : BinaryTree CartesianNode) :
    ((children l r).map BinaryTree.numNodes).sum = l.numNodes + r.numNodes := by
  cases l <;> cases r <;> simp [children]
  omega

/-- And the addresses of these. -/
theorem flatMap_children (l r : BinaryTree CartesianNode) :
    (children l r).flatMap addrs = addrs r ++ addrs l := by
  cases l <;> cases r <;> simp [children, addrs]

variable {p : Pool} {a : RTAllocator} {capacity j : Nat} {d : LocalDeque Nat}

/-- **`Next`** over the words.  It takes the first node of the queue and puts its children at the
    end; the room that is needed goes down by one node. -/
theorem iteratorNext_spec {n : CartesianNode} {l r : BinaryTree CartesianNode}
    {queue : List (BinaryTree CartesianNode)}
    (h : Rep capacity d j ((BinaryTree.node n l r :: queue).map rootAddr))
    (hs : p.Stored (.node n l r)) (hqueue : ∀ s ∈ queue, s ≠ .nil)
    (hroom : j + ((BinaryTree.node n l r :: queue).map BinaryTree.numNodes).sum ≤ capacity) :
    ∃ d', p.iteratorNext d = .ok (n.addr, d') ∧
      Rep capacity d' (j + 1) ((queue ++ children l r).map rootAddr) := by
  obtain ⟨-, hleft, hright, hl, hr⟩ := hs
  have hlen := length_le_sum hqueue
  rw [List.map_cons, List.sum_cons, BinaryTree.numNodes] at hroom
  rw [List.map_cons] at h
  obtain ⟨d₁, hres₁, hrep₁⟩ := CartesianTree.pushIf_spec (p.right n.addr ≠ 0) h (p.right n.addr)
    fun hne => by
      rw [hright] at hne
      have := CartesianTree.numNodes_pos (hr.rootAddr_ne.mp hne)
      rw [List.length_cons, List.length_map]
      omega
  obtain ⟨d₂, hres₂, hrep₂⟩ := CartesianTree.pushIf_spec (p.left n.addr ≠ 0) hrep₁ (p.left n.addr)
    fun hne => by
      rw [hleft] at hne
      have hlpos := CartesianTree.numNodes_pos (hl.rootAddr_ne.mp hne)
      rw [List.length_append, List.length_cons, List.length_map]
      split
      case isTrue hne =>
        rw [hright] at hne
        have hrpos := CartesianTree.numNodes_pos (hr.rootAddr_ne.mp hne)
        rw [List.length_singleton]
        omega
      case isFalse =>
        rw [List.length_nil]
        omega
  have hempty : ¬ d.isEmpty = true := fun hc =>
    absurd (h.isEmpty_iff.mp hc) (List.cons_ne_nil _ _)
  refine ⟨d₂.popFront, ?_, ?_⟩
  · rw [iteratorNext, if_neg hempty, h.frontValue]
    simp only [ofDeque_ok, bind, Except.bind, rootAddr, hres₁, hres₂]
  · have hif : ∀ (s : BinaryTree CartesianNode), p.Stored s →
        (if rootAddr s ≠ 0 then [rootAddr s] else []) = (if s ≠ .nil then [s] else []).map rootAddr :=
      fun s hs => by
        by_cases hnil : s ≠ .nil
        · rw [if_pos hnil, if_pos (hs.rootAddr_ne.mpr hnil)]
          rfl
        · rw [if_neg hnil, if_neg fun hne => hnil (hs.rootAddr_ne.mp hne)]
          rfl
    rw [hleft, hright, hif l hl, hif r hr, List.append_assoc, List.cons_append] at hrep₂
    rw [List.map_append, children, List.map_append]
    exact hrep₂.popFront

/-- The loop of `ClearTree` over the words frees what the loop over the list frees, although it
    overwrites the left child of every node it frees. -/
theorem clearLoop_spec (fuel : Nat) : ∀ (queue : List (BinaryTree CartesianNode))
    (t : CartesianTree) (p : Pool) (d : LocalDeque Nat) (j : Nat),
    Rep capacity d j (queue.map rootAddr) → (∀ s ∈ queue, s ≠ .nil ∧ p.Stored s) →
    (queue.flatMap addrs ++ t.nodeAllocator.head).Nodup → Agrees p t.nodeAllocator →
    (queue.map BinaryTree.numNodes).sum ≤ fuel →
    j + (queue.map BinaryTree.numNodes).sum ≤ capacity →
    ∃ p' t', clearLoop (fuel + 1) p d = .ok p' ∧
      CartesianTree.clearNodes fuel queue t = .ok t' ∧ Agrees p' t'.nodeAllocator := by
  induction fuel with
  | zero =>
    intro queue t p d j hrep hqueue hnodup hagrees hfuel hroom
    have hnil : queue = [] := by
      have := length_le_sum fun s hs => (hqueue s hs).1
      exact List.length_eq_zero_iff.mp (by omega)
    subst hnil
    refine ⟨p, t, ?_, rfl, hagrees⟩
    rw [clearLoop, iteratorNext, if_pos (hrep.isEmpty_iff.mpr rfl)]
    rfl
  | succ fuel ih =>
    intro queue t p d j hrep hqueue hnodup hagrees hfuel hroom
    cases queue with
    | nil =>
      refine ⟨p, t, ?_, rfl, hagrees⟩
      rw [clearLoop, iteratorNext, if_pos (hrep.isEmpty_iff.mpr rfl)]
      rfl
    | cons s queue =>
      cases s with
      | nil => exact absurd rfl (hqueue _ List.mem_cons_self).1
      | node n l r =>
        have hstored := (hqueue _ List.mem_cons_self).2
        have hqueue' : ∀ s ∈ queue, s ≠ .nil ∧ p.Stored s := fun s hs =>
          hqueue s (List.mem_cons_of_mem _ hs)
        obtain ⟨d', hres, hrep'⟩ := iteratorNext_spec hrep hstored (fun s hs => (hqueue' s hs).1) hroom
        rw [List.map_cons, List.sum_cons, BinaryTree.numNodes] at hfuel hroom
        -- the slots still in the queue are other slots than the one that is freed
        have hperm : ((BinaryTree.node n l r :: queue).flatMap addrs ++ t.nodeAllocator.head).Perm
            (n.addr :: ((queue ++ children l r).flatMap addrs ++ t.nodeAllocator.head)) := by
          rw [List.perm_iff_count]
          intro b
          simp only [List.flatMap_cons, List.flatMap_append, flatMap_children, addrs_node,
            List.count_append, List.count_cons]
          omega
        obtain ⟨hfresh, hnodup'⟩ := List.nodup_cons.mp (hperm.nodup_iff.mp hnodup)
        have hstored' : ∀ s ∈ queue ++ children l r, s ≠ .nil ∧ (p.deallocate n.addr).Stored s := by
          intro s hs
          have hx : n.addr ∉ addrs s := fun hmem =>
            hfresh (List.mem_append_left _ (List.mem_flatMap.mpr ⟨s, hs, hmem⟩))
          rcases List.mem_append.mp hs with hs | hs
          · exact ⟨(hqueue' s hs).1, (hqueue' s hs).2.deallocate hx⟩
          · obtain ⟨hne, rfl | rfl⟩ := mem_children hs
            · exact ⟨hne, hstored.2.2.2.1.deallocate hx⟩
            · exact ⟨hne, hstored.2.2.2.2.deallocate hx⟩
        have hsum : ((queue ++ children l r).map BinaryTree.numNodes).sum =
            (queue.map BinaryTree.numNodes).sum + (l.numNodes + r.numNodes) := by
          rw [List.map_append, List.sum_append, numNodes_children]
        obtain ⟨p', t', hclear, hnodes, hagrees'⟩ := ih (queue ++ children l r)
          (t.deallocate n.addr) (p.deallocate n.addr) d' (j + 1) hrep' hstored'
          ((List.perm_middle.nodup_iff).mpr (List.nodup_cons.mpr ⟨hfresh, hnodup'⟩))
          (hagrees.deallocate hstored.1 fun hfree => hfresh (List.mem_append_right _ hfree))
          (by omega) (by omega)
        refine ⟨p', t', ?_, ?_, hagrees'⟩
        · rw [clearLoop, hres]
          simp only [bind, Except.bind, if_neg hstored.1]
          exact hclear
        · rw [CartesianTree.clearNodes, List.append_assoc]
          exact hnodes

/-- **`ClearTree`** over the words and the deque.  A node is freed only after its children are in
    the queue, so that the link that is written into it is not followed. -/
theorem clearTreeScan_spec {t : CartesianTree} {sud : SingleUseDeque} (hsud : sud.Mapped capacity)
    (hnodes : t.root.numNodes ≤ capacity) (mapping : Nat → Nat) (hagrees : Agrees p t.nodeAllocator)
    (hstored : p.Stored t.root) (hnodup : (addrs t.root ++ t.nodeAllocator.head).Nodup) :
    ∃ p' t', p.clearTreeScan (rootAddr t.root) (t.root.numNodes + 1) sud mapping = .ok p' ∧
      t.clearTree = .ok t' ∧ Agrees p' t'.nodeAllocator := by
  have hinit := LocalDeque.rep_init hsud mapping 0
  let queue := if t.root ≠ .nil then [t.root] else []
  have hqueue : ∀ s ∈ queue, s ≠ .nil ∧ p.Stored s := by
    intro s hs
    -- the queue has the root, or nothing
    by_cases hroot : t.root ≠ .nil
    · rw [show queue = [t.root] from if_pos hroot, List.mem_singleton] at hs
      rw [hs]
      exact ⟨hroot, hstored⟩
    · rw [show queue = [] from if_neg hroot] at hs
      exact absurd hs List.not_mem_nil
  have hsum : (queue.map BinaryTree.numNodes).sum = t.root.numNodes := by
    cases hroot : t.root <;> simp [queue, hroot]
  have haddrs : queue.flatMap addrs = addrs t.root := by
    cases hroot : t.root <;> simp [queue, hroot, addrs]
  obtain ⟨d, hres, hrep⟩ := CartesianTree.pushIf_spec (rootAddr t.root ≠ 0) hinit (rootAddr t.root)
    fun hne => by
      have := CartesianTree.numNodes_pos (hstored.rootAddr_ne.mp hne)
      rw [List.length_nil]
      omega
  have hpush : ([] ++ if rootAddr t.root ≠ 0 then [rootAddr t.root] else []) =
      queue.map rootAddr := by
    by_cases hroot : t.root ≠ .nil
    · rw [if_pos (hstored.rootAddr_ne.mpr hroot), show queue = [t.root] from if_pos hroot]
      rfl
    · rw [if_neg fun hne => hroot (hstored.rootAddr_ne.mp hne),
        show queue = [] from if_neg hroot]
      rfl
  rw [hpush] at hrep
  obtain ⟨p', t', hclear, hnodes', hagrees'⟩ := clearLoop_spec t.root.numNodes queue t p d 0 hrep
    hqueue (by rw [haddrs]; exact hnodup) hagrees (by omega) (by omega)
  refine ⟨p', { t' with root := .nil, totalCount := 0 }, ?_, ?_, hagrees'⟩
  · rw [clearTreeScan, hres]
    exact hclear
  · rw [CartesianTree.clearTree, hnodes']
    rfl

end Pool

end CangjieRuntime.Heap
