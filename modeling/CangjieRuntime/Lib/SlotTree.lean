/-
  Binary trees edited IN PLACE through parent slots.

  Imperative tree code does not rebuild paths: it keeps a pointer to the field a node hangs from
  (`Node**`), reads the node through it and overwrites it.  Here a slot is the path from the root
  field to that field, `subtree t p` is what is read through it and `graft t p s` is the tree
  after writing `s` there.

  Three facts about slots carry every proof that uses them:
    * the inorder sequence of a tree splits at a slot into what lies before it, the subtree read
      through it and what lies after it, and a write changes the middle part only;
    * writes below a slot compose (`graft_graft_append`), so a loop that walks down rewriting
      its current slot is one write at the slot it started from;
    * a write keeps a max-heap order when the new subtree is a heap whose top is no larger than
      the old one's.
-/
import Mathlib.Data.Tree.Basic
import Mathlib.Data.List.Perm.Basic
import Mathlib.Data.List.Induction
import Mathlib.Algebra.Order.Group.Nat

set_option linter.unusedVariables false

namespace SlotTree

open BinaryTree

variable {α : Type}

/-- The child field a slot names. -/
inductive Side
  | left
  | right
  deriving DecidableEq, Repr

/-- A slot: the path from the root field to a child field. -/
abbrev Slot := List Side

/-! ## Reading and writing through a slot -/

/-- The subtree read through a slot; `nil` when the path leaves the tree. -/
def subtree : BinaryTree α → Slot → BinaryTree α
  | t, [] => t
  | .nil, _ :: _ => .nil
  | .node _ l _, .left :: p => subtree l p
  | .node _ _ r, .right :: p => subtree r p

/-- The tree after writing `s` through a slot. -/
def graft : BinaryTree α → Slot → BinaryTree α → BinaryTree α
  | _, [], s => s
  | .nil, _ :: _, _ => .nil
  | .node a l r, .left :: p, s => .node a (graft l p s) r
  | .node a l r, .right :: p, s => .node a l (graft r p s)

/-- The slot exists: every node the path goes through is in the tree. -/
def Reaches : BinaryTree α → Slot → Prop
  | _, [] => True
  | .nil, _ :: _ => False
  | .node _ l _, .left :: p => Reaches l p
  | .node _ _ r, .right :: p => Reaches r p

@[simp] theorem subtree_root (t : BinaryTree α) : subtree t [] = t := by cases t <;> rfl
@[simp] theorem graft_root (t s : BinaryTree α) : graft t [] s = s := by cases t <;> rfl
@[simp] theorem reaches_root (t : BinaryTree α) : Reaches t [] := by cases t <;> trivial
@[simp] theorem subtree_nil (p : Slot) : subtree (.nil : BinaryTree α) p = .nil := by
  cases p <;> rfl
@[simp] theorem subtree_left (a : α) (l r : BinaryTree α) (p : Slot) :
    subtree (.node a l r) (.left :: p) = subtree l p := rfl
@[simp] theorem subtree_right (a : α) (l r : BinaryTree α) (p : Slot) :
    subtree (.node a l r) (.right :: p) = subtree r p := rfl
@[simp] theorem graft_left (a : α) (l r s : BinaryTree α) (p : Slot) :
    graft (.node a l r) (.left :: p) s = .node a (graft l p s) r := rfl
@[simp] theorem graft_right (a : α) (l r s : BinaryTree α) (p : Slot) :
    graft (.node a l r) (.right :: p) s = .node a l (graft r p s) := rfl
@[simp] theorem reaches_left (a : α) (l r : BinaryTree α) (p : Slot) :
    Reaches (.node a l r) (.left :: p) ↔ Reaches l p := Iff.rfl
@[simp] theorem reaches_right (a : α) (l r : BinaryTree α) (p : Slot) :
    Reaches (.node a l r) (.right :: p) ↔ Reaches r p := Iff.rfl

/-- The way to a slot below a slot goes through it. -/
theorem subtree_append (t : BinaryTree α) (p q : Slot) :
    subtree t (p ++ q) = subtree (subtree t p) q := by
  induction t, p using subtree.induct with
  | case1 t => simp
  | case2 d p => simp
  | case3 a l r p ih => simpa using ih
  | case4 a l r p ih => simpa using ih

/-- A slot below a slot is in the tree if the upper one is, and the lower one is in its subtree. -/
theorem reaches_append {t : BinaryTree α} {p q : Slot} :
    Reaches t (p ++ q) ↔ Reaches t p ∧ Reaches (subtree t p) q := by
  induction t, p using subtree.induct with
  | case1 t => simp
  | case2 d p => simp [Reaches]
  | case3 a l r p ih => simpa using ih
  | case4 a l r p ih => simpa using ih

/-- A slot through which a node is read exists. -/
theorem reaches_of_subtree {t : BinaryTree α} {p : Slot} {a : α} {l r : BinaryTree α}
    (h : subtree t p = .node a l r) : Reaches t p := by
  induction t, p using subtree.induct with
  | case1 t => exact reaches_root t
  | case2 d p => simp at h
  | case3 b l' r' p ih => exact ih h
  | case4 b l' r' p ih => exact ih h

/-- Both child slots of a node that is read exist. -/
theorem reaches_child {t : BinaryTree α} {p : Slot} {a : α} {l r : BinaryTree α}
    (h : subtree t p = .node a l r) (d : Side) : Reaches t (p ++ [d]) := by
  rw [reaches_append, h]
  exact ⟨reaches_of_subtree h, by cases d <;> simp⟩

/-- Below a graft is what was grafted. -/
theorem subtree_graft_append {t : BinaryTree α} {p : Slot} (h : Reaches t p)
    (q : Slot) (s : BinaryTree α) : subtree (graft t p s) (p ++ q) = subtree s q := by
  induction t, p using subtree.induct with
  | case1 t => simp
  | case2 d p => exact absurd h (by simp [Reaches])
  | case3 a l r p ih => simpa using ih h
  | case4 a l r p ih => simpa using ih h

/-- At a graft is what was grafted. -/
@[simp] theorem subtree_graft {t : BinaryTree α} {p : Slot} (h : Reaches t p)
    (s : BinaryTree α) : subtree (graft t p s) p = s := by
  simpa using subtree_graft_append h [] s

/-- A graft below a slot is a graft into the subtree at the slot. -/
theorem graft_append {t : BinaryTree α} {p : Slot} (h : Reaches t p) (q : Slot)
    (s : BinaryTree α) : graft t (p ++ q) s = graft t p (graft (subtree t p) q s) := by
  induction t, p using subtree.induct with
  | case1 t => simp
  | case2 d p => exact absurd h (by simp [Reaches])
  | case3 a l r p ih => simpa using ih h
  | case4 a l r p ih => simpa using ih h

/-- Writes below a slot that was just written compose into one write at that slot. -/
theorem graft_graft_append {t : BinaryTree α} {p : Slot} (h : Reaches t p) (q : Slot)
    (s u : BinaryTree α) : graft (graft t p s) (p ++ q) u = graft t p (graft s q u) := by
  induction t, p using subtree.induct with
  | case1 t => simp
  | case2 d p => exact absurd h (by simp [Reaches])
  | case3 a l r p ih => simpa using ih h
  | case4 a l r p ih => simpa using ih h

/-- Of two grafts at a slot the second counts. -/
@[simp] theorem graft_graft {t : BinaryTree α} {p : Slot} (h : Reaches t p)
    (s u : BinaryTree α) : graft (graft t p s) p u = graft t p u := by
  simpa using graft_graft_append h [] s u

/-- A graft keeps its slot in the tree. -/
@[simp] theorem reaches_graft {t : BinaryTree α} {p : Slot} (h : Reaches t p)
    (s : BinaryTree α) : Reaches (graft t p s) p := by
  induction t, p using subtree.induct with
  | case1 t => simp
  | case2 d p => exact absurd h (by simp [Reaches])
  | case3 a l r p ih => simpa using ih h
  | case4 a l r p ih => simpa using ih h

/-- To graft what is there changes nothing. -/
@[simp] theorem graft_subtree (t : BinaryTree α) (p : Slot) : graft t p (subtree t p) = t := by
  induction t, p using subtree.induct with
  | case1 t => simp
  | case2 d p => rfl
  | case3 a l r p ih => simp [ih]
  | case4 a l r p ih => simp [ih]

/-! ## The inorder sequence, split at a slot -/

/-- The values from left to right. -/
def inorder : BinaryTree α → List α
  | .nil => []
  | .node a l r => inorder l ++ a :: inorder r

/-- The inorder sequence left of a slot. -/
def before : BinaryTree α → Slot → List α
  | _, [] => []
  | .nil, _ :: _ => []
  | .node _ l _, .left :: p => before l p
  | .node a l r, .right :: p => inorder l ++ a :: before r p

/-- The inorder sequence right of a slot. -/
def after : BinaryTree α → Slot → List α
  | _, [] => []
  | .nil, _ :: _ => []
  | .node a l r, .left :: p => after l p ++ a :: inorder r
  | .node _ _ r, .right :: p => after r p

@[simp] theorem inorder_nil : inorder (.nil : BinaryTree α) = [] := rfl
@[simp] theorem inorder_node (a : α) (l r : BinaryTree α) :
    inorder (.node a l r) = inorder l ++ a :: inorder r := rfl
@[simp] theorem before_root (t : BinaryTree α) : before t [] = [] := by cases t <;> rfl
@[simp] theorem after_root (t : BinaryTree α) : after t [] = [] := by cases t <;> rfl
@[simp] theorem before_left (a : α) (l r : BinaryTree α) (p : Slot) :
    before (.node a l r) (.left :: p) = before l p := rfl
@[simp] theorem before_right (a : α) (l r : BinaryTree α) (p : Slot) :
    before (.node a l r) (.right :: p) = inorder l ++ a :: before r p := rfl
@[simp] theorem after_left (a : α) (l r : BinaryTree α) (p : Slot) :
    after (.node a l r) (.left :: p) = after l p ++ a :: inorder r := rfl
@[simp] theorem after_right (a : α) (l r : BinaryTree α) (p : Slot) :
    after (.node a l r) (.right :: p) = after r p := rfl

/-- **The split.**  What is written through a slot lands between the two fixed parts.  A slot splits
    the inorder sequence into what is before it, what is below it, and what is after it. -/
theorem inorder_graft {t : BinaryTree α} {p : Slot} (h : Reaches t p) (s : BinaryTree α) :
    inorder (graft t p s) = before t p ++ inorder s ++ after t p := by
  induction t, p using subtree.induct with
  | case1 t => simp
  | case2 d p => exact absurd h (by simp [Reaches])
  | case3 a l r p ih => simp [ih h]
  | case4 a l r p ih => simp [ih h]

/-- The sequence of a tree is what is left of a slot, the sequence of the subtree at the slot, and
    what is right of it. -/
theorem inorder_split {t : BinaryTree α} {p : Slot} (h : Reaches t p) :
    inorder t = before t p ++ inorder (subtree t p) ++ after t p := by
  rw [← inorder_graft h, graft_subtree]

/-- Left of a slot below a slot are what is left of the upper one, and then what is left of the
    lower one in the subtree. -/
theorem before_append {t : BinaryTree α} {p : Slot} (h : Reaches t p) (q : Slot) :
    before t (p ++ q) = before t p ++ before (subtree t p) q := by
  induction t, p using subtree.induct with
  | case1 t => simp
  | case2 d p => exact absurd h (by simp [Reaches])
  | case3 a l r p ih => simpa using ih h
  | case4 a l r p ih => simpa using ih h

/-- Right of a slot below a slot, the other way round. -/
theorem after_append {t : BinaryTree α} {p : Slot} (h : Reaches t p) (q : Slot) :
    after t (p ++ q) = after (subtree t p) q ++ after t p := by
  induction t, p using subtree.induct with
  | case1 t => simp
  | case2 d p => exact absurd h (by simp [Reaches])
  | case3 a l r p ih => simp [ih h]
  | case4 a l r p ih => simpa using ih h

/-- Everything under a slot is in the tree. -/
theorem mem_inorder_of_subtree {t : BinaryTree α} {p : Slot} {a : α}
    (h : a ∈ inorder (subtree t p)) : a ∈ inorder t := by
  induction t, p using subtree.induct with
  | case1 t => simpa using h
  | case2 d p => simp at h
  | case3 b l r p ih => simp [ih h]
  | case4 b l r p ih => simp [ih h]

/-- There are as many nodes as values. -/
theorem numNodes_eq_length_inorder (t : BinaryTree α) : t.numNodes = (inorder t).length := by
  induction t with
  | nil => rfl
  | node a l r ihl ihr => simp [ihl, ihr]; omega

/-! ## Max-heap order on a key -/

section Heap

variable (key : α → Nat)

/-- The key at the root; an empty tree counts as 0. -/
def topKey : BinaryTree α → Nat
  | .nil => 0
  | .node a _ _ => key a

/-- Every node's key is at least its children's. -/
def HeapOrdered : BinaryTree α → Prop
  | .nil => True
  | .node a l r =>
      topKey key l ≤ key a ∧ topKey key r ≤ key a ∧ HeapOrdered l ∧ HeapOrdered r

variable {key}

@[simp] theorem topKey_nil : topKey key (.nil : BinaryTree α) = 0 := rfl
@[simp] theorem topKey_node (a : α) (l r : BinaryTree α) :
    topKey key (.node a l r) = key a := rfl
@[simp] theorem heapOrdered_nil : HeapOrdered key (.nil : BinaryTree α) := trivial
@[simp] theorem heapOrdered_node (a : α) (l r : BinaryTree α) :
    HeapOrdered key (.node a l r) ↔
      topKey key l ≤ key a ∧ topKey key r ≤ key a ∧ HeapOrdered key l ∧ HeapOrdered key r :=
  Iff.rfl

/-- Every subtree of a heap is one. -/
theorem HeapOrdered.subtree {t : BinaryTree α} (h : HeapOrdered key t) (p : Slot) :
    HeapOrdered key (subtree t p) := by
  induction t, p using SlotTree.subtree.induct with
  | case1 t => simpa using h
  | case2 d p => trivial
  | case3 a l r p ih => exact ih h.2.2.1
  | case4 a l r p ih => exact ih h.2.2.2

/-- The root of a heap carries the largest key. -/
theorem HeapOrdered.le_topKey {t : BinaryTree α} (h : HeapOrdered key t) :
    ∀ a ∈ inorder t, key a ≤ topKey key t := by
  induction t with
  | nil => intro a ha; simp at ha
  | node b l r ihl ihr =>
    obtain ⟨hl, hr, hhl, hhr⟩ := h
    intro a ha
    simp only [inorder_node, List.mem_append, List.mem_cons] at ha
    rcases ha with ha | rfl | ha
    · exact Nat.le_trans (ihl hhl a ha) hl
    · exact Nat.le_refl _
    · exact Nat.le_trans (ihr hhr a ha) hr

/-- A graft whose top is not above the old one does not raise the top of the tree. -/
theorem topKey_graft_le {t s : BinaryTree α} {p : Slot}
    (hs : topKey key s ≤ topKey key (subtree t p)) :
    topKey key (graft t p s) ≤ topKey key t := by
  match t, p with
  | t, [] => simpa using hs
  | .nil, _ :: _ => exact Nat.le_refl _
  | .node a l r, .left :: p => exact Nat.le_refl _
  | .node a l r, .right :: p => exact Nat.le_refl _

/-- Writing a heap with no larger a top keeps the heap order. -/
theorem HeapOrdered.graft {t s : BinaryTree α} {p : Slot} (h : HeapOrdered key t)
    (hs : HeapOrdered key s) (hle : topKey key s ≤ topKey key (SlotTree.subtree t p)) :
    HeapOrdered key (graft t p s) := by
  induction t, p using SlotTree.subtree.induct with
  | case1 t => simpa using hs
  | case2 d p => trivial
  | case3 a l r p ih =>
    obtain ⟨hl, hr, hhl, hhr⟩ := h
    exact ⟨Nat.le_trans (topKey_graft_le hle) hl, hr, ih hhl hle, hhr⟩
  | case4 a l r p ih =>
    obtain ⟨hl, hr, hhl, hhr⟩ := h
    exact ⟨hl, Nat.le_trans (topKey_graft_le hle) hr, hhl, ih hhr hle⟩

end Heap

/-! ## Rotations at the root -/

/-- The left child becomes the root. -/
def rotateLeftUp : BinaryTree α → BinaryTree α
  | .node a (.node b bl br) r => .node b bl (.node a br r)
  | t => t

/-- The right child becomes the root. -/
def rotateRightUp : BinaryTree α → BinaryTree α
  | .node a l (.node b bl br) => .node b (.node a l bl) br
  | t => t

@[simp] theorem inorder_rotateLeftUp (t : BinaryTree α) : inorder (rotateLeftUp t) = inorder t := by
  unfold rotateLeftUp; split <;> simp

@[simp] theorem inorder_rotateRightUp (t : BinaryTree α) :
    inorder (rotateRightUp t) = inorder t := by
  unfold rotateRightUp; split <;> simp

end SlotTree
