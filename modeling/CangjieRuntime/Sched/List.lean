/-
  The scheduler's doubly linked lists (`rt.sched/List.cj`).

  A list is a head node and its elements in a ring; every operation is a few writes to the links, in
  a fixed order and with no checks.  The embedding:

    * nodes are the values of any type with decidable equality, and the memory is the two links of
      every node;
    * every operation makes the source's reads and writes in the source's order.  Each is then
      shown to be a few edits `connect` of the ring library;
    * counts and indices are the source's 32-bit signed integers, with wrapping arithmetic.
-/
import CangjieRuntime.Lib.Rings

set_option linter.unusedVariables false

namespace CangjieRuntime.Sched

open Rings

namespace Dulink

variable {α : Type}

/-! ## The operations -/

section Writes

variable [DecidableEq α]

/-- `DulinkSetPrev`: a write of one link. -/
def dulinkSetPrev (m : Links α) (node value : α) : Links α :=
  { m with prev := Function.update m.prev node value }

/-- `DulinkSetNext`: a write of the other. -/
def dulinkSetNext (m : Links α) (node value : α) : Links α :=
  { m with next := Function.update m.next node value }

/-- `DulinkInit`: an empty list, whose head is linked to itself. -/
def dulinkInit (m : Links α) (dulink : α) : Links α :=
  let m := dulinkSetNext m dulink dulink
  dulinkSetPrev m dulink dulink

/-- `DulinkIsEmpty`: the head leads to itself. -/
def dulinkIsEmpty (m : Links α) (dulink : α) : Bool := m.next dulink = dulink

/-- `DulinkRemove`: its neighbours are linked to each other, and the links of the element stay. -/
def dulinkRemove (m : Links α) (item : α) : Links α :=
  let prev := m.prev item
  let next := m.next item
  let m := dulinkSetNext m prev next
  dulinkSetPrev m next prev

/-- `DulinkAdd`: put `item` after `place`. -/
def dulinkAdd (m : Links α) (item place : α) : Links α :=
  let m := dulinkSetNext m item (m.next place)
  let m := dulinkSetPrev m item place
  let m := dulinkSetNext m place item
  dulinkSetPrev m (m.next item) item

/-- `DulinkPushtail`: the node comes before the head. -/
def dulinkPushtail (m : Links α) (dulink newNode : α) : Links α :=
  let tail := m.prev dulink
  let m := dulinkSetNext m tail newNode
  let m := dulinkSetPrev m newNode tail
  let m := dulinkSetNext m newNode dulink
  dulinkSetPrev m dulink newNode

/-- `DulinkPushHead`: the node comes behind the head. -/
def dulinkPushHead (m : Links α) (dulink node : α) : Links α :=
  let m := dulinkSetNext m node (m.next dulink)
  let m := dulinkSetPrev m node dulink
  let m := dulinkSetNext m dulink node
  dulinkSetPrev m (m.next node) node

/-- `DulinkPopTail`: the node before the head goes. -/
def dulinkPopTail (m : Links α) (dulink : α) : Links α :=
  let tail := m.prev dulink
  let prev := m.prev tail
  let next := m.next tail
  let m := dulinkSetNext m prev next
  dulinkSetPrev m next prev

/-- `DulinkPopHead`: the node behind the head goes. -/
def dulinkPopHead (m : Links α) (dulink : α) : Links α :=
  let head := m.next dulink
  let prev := m.prev head
  let next := m.next head
  let m := dulinkSetNext m prev next
  dulinkSetPrev m next prev

end Writes

/-- `DulinkGetIndexByNext`: the loop takes `index` steps, and none if `index` is negative. -/
def dulinkGetIndexByNext (m : Links α) (head : α) (index : Int32) : α :=
  m.next^[index.toInt.toNat] head

/-- `DulinkGetIndexByPrev`: so many steps back from the head. -/
def dulinkGetIndexByPrev (m : Links α) (head : α) (index : Int32) : α :=
  m.prev^[index.toInt.toNat] head

/-- The node `DulinkMove` moves up to. -/
def moveEnd (m : Links α) (fromHead : α) (countOfMoveOrReserve : Int32) : α :=
  if 0 < countOfMoveOrReserve then dulinkGetIndexByNext m fromHead countOfMoveOrReserve
  else dulinkGetIndexByPrev m fromHead (-countOfMoveOrReserve + 1)

section Splices

variable [DecidableEq α]

/-- `DulinkInsertHead`: a chain of nodes comes behind the head. -/
def dulinkInsertHead (m : Links α) (head beg last : α) : Links α :=
  let oldFirst := m.next head
  let m := dulinkSetPrev m oldFirst last
  let m := dulinkSetNext m last oldFirst
  let m := dulinkSetNext m head beg
  dulinkSetPrev m beg head

/-- `DulinkMove`: the nodes up to `moveEnd` are taken out of one list and put at the start of the
    other. -/
def dulinkMove (m : Links α) (toHead fromHead : α) (countOfMoveOrReserve : Int32) : Links α :=
  let beg := m.next fromHead
  let last := moveEnd m fromHead countOfMoveOrReserve
  let after := m.next last
  let m := dulinkSetNext m fromHead after
  let m := dulinkSetPrev m after fromHead
  dulinkInsertHead m toHead beg last

end Splices

/-! ## The operations as edits of rings -/

section Edits

variable [DecidableEq α] (m : Links α)

/-- A node that is initialised is linked to itself. -/
theorem dulinkInit_eq (dulink : α) : dulinkInit m dulink = m.connect dulink dulink := rfl

/-- A removal connects the nodes on both sides of the element. -/
theorem dulinkRemove_eq (item : α) :
    dulinkRemove m item = m.connect (m.prev item) (m.next item) := rfl

/-- A pop at the end is the removal of the node before the head. -/
theorem dulinkPopTail_eq (dulink : α) :
    dulinkPopTail m dulink = dulinkRemove m (m.prev dulink) := rfl

/-- A pop at the start is the removal of the node behind the head. -/
theorem dulinkPopHead_eq (dulink : α) :
    dulinkPopHead m dulink = dulinkRemove m (m.next dulink) := rfl

/-- A push at the end is two connections, around the new node. -/
theorem dulinkPushtail_eq (dulink newNode : α) : dulinkPushtail m dulink newNode =
    (m.connect (m.prev dulink) newNode).connect newNode dulink := rfl

/-- So is an addition behind a place. -/
theorem dulinkAdd_eq {item place : α} (hne : place ≠ item) : dulinkAdd m item place =
    (m.connect place item).connect item (m.next place) := by
  have hnext : Function.update (Function.update m.next item (m.next place)) place item item =
      m.next place := by
    rw [Function.update_of_ne hne.symm, Function.update_self]
  simp only [dulinkAdd, dulinkSetNext, dulinkSetPrev, Links.connect, hnext]
  rw [Function.update_comm hne]

/-- A push at the start is an addition behind the head. -/
theorem dulinkPushHead_eq (dulink node : α) :
    dulinkPushHead m dulink node = dulinkAdd m node dulink := rfl

/-- A chain is put behind the head by two connections, at its ends. -/
theorem dulinkInsertHead_eq {head beg last : α} (hlast : last ≠ head)
    (hbeg : m.next head ≠ beg) : dulinkInsertHead m head beg last =
    (m.connect head beg).connect last (m.next head) := by
  have hedits : dulinkInsertHead m head beg last =
      (m.connect last (m.next head)).connect head beg := rfl
  rw [hedits]
  exact connect_comm hlast hbeg

/-- A move closes the gap in one list, and puts the chain into the other. -/
theorem dulinkMove_eq (toHead fromHead : α) (count : Int32) : dulinkMove m toHead fromHead count =
    dulinkInsertHead (m.connect fromHead (m.next (moveEnd m fromHead count))) toHead
      (m.next fromHead) (moveEnd m fromHead count) := rfl

end Edits

/-! ## Reading a ring -/

section Read

variable {m : Links α} {h : α} {l u v : List α}

/-- The node before a cut leads to the node behind it. -/
theorem next_before (hring : Ring m h (u ++ v)) : m.next (before h u) = after v h :=
  hring.linked.1

/-- And back. -/
theorem prev_after (hring : Ring m h (u ++ v)) : m.prev (after v h) = before h u :=
  hring.linked.2

/-- The head leads to the first element. -/
theorem next_head (hring : Ring m h l) : m.next h = after l h := by
  exact next_before (u := []) hring

/-- And back from it to the last one. -/
theorem prev_head (hring : Ring m h l) : m.prev h = before h l := by
  refine prev_after (v := []) ?_
  rw [List.append_nil]
  exact hring

/-- `DulinkIsEmpty` tells if the list is empty. -/
theorem dulinkIsEmpty_iff [DecidableEq α] (hring : Ring m h l) (hnotin : h ∉ l) :
    dulinkIsEmpty m h = true ↔ l = [] := by
  rw [dulinkIsEmpty, next_head hring, decide_eq_true_iff]
  cases l with
  | nil => simp
  | cons x l =>
    rw [after_cons]
    constructor
    · rintro rfl
      exact absurd List.mem_cons_self hnotin
    · exact nofun

/-- How many elements `DulinkMove` is to move out of `length`. -/
def moveCount (count : Int32) (length : Nat) : Nat :=
  if 0 < count then count.toInt.toNat else length - (-count.toInt).toNat

/-- What `DulinkMove` may be asked: to move at least one element and not more than there are, or to
    reserve fewer than there are. -/
def CountOk (count : Int32) (length : Nat) : Prop :=
  if 0 < count then count.toInt ≤ length else -count.toInt < length

/-- The index `-count + 1` is a 32-bit integer. -/
def IndexFits (count : Int32) : Prop := -count.toInt + 1 < 2 ^ 31

instance (count : Int32) (length : Nat) : Decidable (CountOk count length) :=
  inferInstanceAs (Decidable (if 0 < count then count.toInt ≤ length else -count.toInt < length))

instance (count : Int32) : Decidable (IndexFits count) := inferInstanceAs (Decidable (_ < _))

/-- A move takes at least one node and at most all. -/
theorem CountOk.moveCount_pos {count : Int32} {length : Nat} (h : CountOk count length) :
    0 < moveCount count length ∧ moveCount count length ≤ length := by
  unfold CountOk at h
  unfold moveCount
  by_cases hpos : 0 < count
  · have hint : 0 < count.toInt := Int32.lt_iff_toInt_lt.mp hpos
    rw [if_pos hpos] at h ⊢
    omega
  · have hint : ¬ 0 < count.toInt := fun hlt => hpos (Int32.lt_iff_toInt_lt.mpr hlt)
    rw [if_neg hpos] at h ⊢
    omega

/-- The last node of the first `j + 1` is the one that a walk back over the others ends at. -/
theorem before_reverse_take {j : Nat} (hj : j < l.length) :
    before h (l.reverse.take (l.length - j)) = before h (l.take (j + 1)) := by
  have htake : l.reverse.take (l.length - j) = (l.drop (j + 1)).reverse ++ [l[j]] := by
    rw [List.take_reverse, Nat.sub_sub_self (Nat.le_of_lt hj), List.drop_eq_getElem_cons hj,
      List.reverse_cons]
  rw [htake, before_concat, List.take_succ_eq_append_getElem hj, before_concat]

/-- **The end of a move**, from either direction: the last element to be moved. -/
theorem moveEnd_eq (hring : Ring m h l) {count : Int32} (hcount : CountOk count l.length)
    (hfits : IndexFits count) :
    moveEnd m h count = before h (l.take (moveCount count l.length)) := by
  have hmove := hcount.moveCount_pos
  unfold CountOk at hcount
  unfold moveEnd moveCount at *
  by_cases hpos : 0 < count
  · rw [if_pos hpos] at hcount hmove ⊢
    rw [if_pos hpos]
    exact hring.iterate_next hmove.2
  · rw [if_neg hpos] at hcount hmove ⊢
    rw [if_neg hpos]
    have hint : ¬ 0 < count.toInt := fun hlt => hpos (Int32.lt_iff_toInt_lt.mpr hlt)
    have hindex : (-count + 1).toInt = -count.toInt + 1 := by
      unfold IndexFits at hfits
      rw [Int32.toInt_add, Int32.toInt_neg]
      have hone : (1 : Int32).toInt = 1 := rfl
      rw [hone]
      simp only [Int.bmod]
      omega
    have hj : l.length - (-count.toInt).toNat - 1 < l.length := by omega
    have hback : (-count.toInt + 1).toNat = l.length - (l.length - (-count.toInt).toNat - 1) := by
      omega
    rw [dulinkGetIndexByPrev, hindex, hring.iterate_prev (by omega), hback,
      before_reverse_take hj, Nat.sub_add_cancel (by omega)]

end Read

end Dulink

end CangjieRuntime.Sched
