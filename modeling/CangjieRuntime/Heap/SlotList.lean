/-
  The list of free object slots (`rt.heap.allocator/SlotList.cj`).

  The list has no memory of its own: a free slot holds the link in its second word, and its first
  word, the header, still says how large it is.  `PushFront` zeroes what is behind the two,
  `PopFront` hands the first slot out if its size is the one asked for, and zeroes the link.

  The list stands for the stack of its slots, through any pushes, pops, clears and writes of the
  owners to memory outside (`slotList_refines`): no slot is handed out while it overlaps one that
  is in the list, and what is handed out is zero behind the header.

  The size of a slot comes from the object model, through a function of the C++ runtime
  (`Foreign.getSize`).  The link overlays the word that an array keeps its length in, so a slot in
  the list must not look like an array; its size is then read off the header alone.
-/
import CangjieRuntime.Lib.Runs
import CangjieRuntime.Lib.Words
import Mathlib

set_option linter.unusedVariables false

namespace CangjieRuntime.Heap

namespace SlotList

/-! ## The list -/

/-- Memory: the word of eight bytes at each address; the slots and what is read of them are
    aligned. -/
abbrev Memory := Nat → Nat

/-- The foreign functions: `BaseObject::GetSize`, and `memset_s` with zero.  The size of an object
    that is no array comes from the type its header points to, and does not depend on the rest of
    the memory; `memset_s` refuses what is larger than its limit. -/
structure Foreign where
  getSize : Memory → Nat → Nat
  /-- What a header says of its object. -/
  isArray : Nat → Bool
  size_header : ∀ memory memory' address, isArray (memory address) = false →
    memory' address = memory address → getSize memory' address = getSize memory address
  memset : Memory → Nat → Nat → Memory
  limit : Nat
  zeroed : ∀ memory start size a, size ≤ limit → start ≤ a → a < start + size →
    memset memory start size a = 0
  kept : ∀ memory start size a, (a < start ∨ start + size ≤ a) →
    memset memory start size a = memory a

/-- The list, with the memory of the slots. -/
structure Links where
  memory : Memory
  head : Nat

/-- `ClearExtraContent`. -/
def clearExtraContent (env : Foreign) (memory : Memory) (slot : Nat) : Memory :=
  let size := Words.sub 64 (env.getSize memory slot) 16
  if size > 0 then env.memset memory (slot + 16) size else memory

/-- `PushFront`. -/
def pushFront (env : Foreign) (list : Links) (slot : Nat) : Links :=
  let memory := clearExtraContent env list.memory slot
  ⟨Function.update memory (slot + 8) list.head, slot⟩

/-- `PopFront`: the address handed out, zero for none. -/
def popFront (env : Foreign) (list : Links) (size : Nat) : Nat × Links :=
  if list.head = 0 ∨ size ≠ env.getSize list.memory list.head then (0, list)
  else
    let allocSlot := list.head
    let head := list.memory (allocSlot + 8)
    (allocSlot, ⟨Function.update list.memory (allocSlot + 8) 0, head⟩)

/-- `Clear`. -/
def clear (list : Links) : Links := { list with head := 0 }

/-! ## Slots -/

/-- A slot, with its size. -/
structure Slot where
  address : Nat
  size : Nat
  deriving DecidableEq, Repr

/-- The addresses of a slot. -/
def Slot.extent (slot : Slot) : Set Nat := Set.Ico slot.address (slot.address + slot.size)

/-- A slot that can be in the list: an object that is no array, of the size its header says. -/
structure Slot.Sized (env : Foreign) (memory : Memory) (slot : Slot) : Prop where
  plain : env.isArray (memory slot.address) = false
  size_eq : env.getSize memory slot.address = slot.size

/-- The words behind the link are zero. -/
def Slot.Blank (memory : Memory) (slot : Slot) : Prop :=
  ∀ a, slot.address + 16 ≤ a → a < slot.address + slot.size → memory a = 0

/-- What a slot must be for the list to work: in memory and not at zero, with room for the two
    words, and not larger than can be zeroed. -/
structure Slot.Fits (env : Foreign) (slot : Slot) : Prop where
  address_pos : 0 < slot.address
  room : 16 ≤ slot.size
  limit : slot.size ≤ env.limit
  inMemory : slot.address + slot.size ≤ 2 ^ 64

variable {env : Foreign} {memory memory' : Memory} {slot other : Slot}

/-- The size of a slot depends on its header alone. -/
theorem Slot.Sized.congr (h : slot.Sized env memory)
    (hheader : memory' slot.address = memory slot.address) : slot.Sized env memory' := by
  constructor
  · rw [hheader]
    exact h.plain
  · rw [env.size_header memory memory' slot.address h.plain hheader]
    exact h.size_eq

/-- The header of a slot is in its extent. -/
theorem Slot.Fits.address_mem (h : slot.Fits env) : slot.address ∈ slot.extent := by
  have hroom := h.room
  exact ⟨Nat.le_refl _, by omega⟩

/-- So is its link, in the word behind the header. -/
theorem Slot.Fits.link_mem (h : slot.Fits env) : slot.address + 8 ∈ slot.extent := by
  have hroom := h.room
  exact ⟨Nat.le_add_right _ _, by omega⟩

/-- `ClearExtraContent` writes behind the link only, and blanks the slot. -/
theorem clearExtraContent_spec (hfits : slot.Fits env) (hsized : slot.Sized env memory) :
    (∀ a, (a < slot.address + 16 ∨ slot.address + slot.size ≤ a) →
      clearExtraContent env memory slot.address a = memory a) ∧
    slot.Blank (clearExtraContent env memory slot.address) := by
  have hroom := hfits.room
  have hlimit := hfits.limit
  have haddress := hfits.address_pos
  have hmem := hfits.inMemory
  have hsize : Words.sub 64 (env.getSize memory slot.address) 16 = slot.size - 16 := by
    rw [hsized.size_eq]
    exact Words.sub_eq hroom (by omega)
  have hclear : clearExtraContent env memory slot.address =
      if slot.size - 16 > 0 then env.memset memory (slot.address + 16) (slot.size - 16)
      else memory := by
    rw [clearExtraContent, hsize]
  rw [hclear]
  by_cases hmore : slot.size - 16 > 0
  · rw [if_pos hmore]
    constructor
    · intro a ha
      exact env.kept _ _ _ _ (by omega)
    · intro a hlow hhigh
      exact env.zeroed _ _ _ _ (by omega) hlow (by omega)
  · rw [if_neg hmore]
    exact ⟨fun a _ => rfl, fun a hlow hhigh => by omega⟩

/-! ## The slots in the list -/

/-- The links lead from the head through the slots. -/
def Linked (memory : Memory) : Nat → List Slot → Prop
  | head, [] => head = 0
  | head, slot :: slots => head = slot.address ∧ Linked memory (memory (slot.address + 8)) slots

/-- The list stands for the sequence of its slots. -/
structure Represents (env : Foreign) (list : Links) (slots : List Slot) : Prop where
  linked : Linked list.memory list.head slots
  fits : ∀ slot ∈ slots, slot.Fits env
  sized : ∀ slot ∈ slots, slot.Sized env list.memory
  blank : ∀ slot ∈ slots, slot.Blank list.memory
  apart : slots.Pairwise fun slot other => Disjoint slot.extent other.extent

/-- A chain depends on the links of its slots alone. -/
theorem Linked.congr : ∀ {slots : List Slot} {head : Nat}, Linked memory head slots →
    (∀ slot ∈ slots, memory' (slot.address + 8) = memory (slot.address + 8)) →
    Linked memory' head slots := by
  intro slots
  induction slots with
  | nil =>
    intro head h _
    exact h
  | cons slot slots ih =>
    intro head h hsame
    obtain ⟨hhead, hrest⟩ := h
    refine ⟨hhead, ?_⟩
    rw [hsame slot List.mem_cons_self]
    exact ih hrest fun other hother => hsame other (List.mem_cons_of_mem _ hother)

/-- **The frame rule**: a list does not notice writes outside of its slots. -/
theorem Represents.congr {list : Links} {slots : List Slot} (h : Represents env list slots)
    (hsame : ∀ slot ∈ slots, ∀ a ∈ slot.extent, memory' a = list.memory a) :
    Represents env ⟨memory', list.head⟩ slots := by
  refine ⟨?_, h.fits, ?_, ?_, h.apart⟩
  · exact h.linked.congr fun slot hslot => hsame slot hslot _ (h.fits slot hslot).link_mem
  · intro slot hslot
    exact (h.sized slot hslot).congr (hsame slot hslot _ (h.fits slot hslot).address_mem)
  · intro slot hslot a hlow hhigh
    refine (hsame slot hslot a ⟨?_, hhigh⟩).trans (h.blank slot hslot a hlow hhigh)
    exact Nat.le_trans (Nat.le_add_right _ 16) hlow

/-- **A push.**  The link goes into the slot itself and the words behind it are cleared, and no
    other slot has one of these words. -/
theorem Represents.push {list : Links} {slots : List Slot} (h : Represents env list slots)
    (hfits : slot.Fits env) (hsized : slot.Sized env list.memory)
    (hapart : ∀ other ∈ slots, Disjoint slot.extent other.extent) :
    Represents env (pushFront env list slot.address) (slot :: slots) := by
  obtain ⟨hkept, hblank⟩ := clearExtraContent_spec hfits hsized
  have hroom := hfits.room
  -- outside of the slot, and at its header, nothing is written
  have hout : ∀ a, a ≠ slot.address + 8 → (a < slot.address + 16 ∨ slot.address + slot.size ≤ a) →
      (pushFront env list slot.address).memory a = list.memory a := by
    intro a hne ha
    exact (Function.update_of_ne hne _ _).trans (hkept a ha)
  have hrest : Represents env ⟨(pushFront env list slot.address).memory, list.head⟩ slots := by
    refine h.congr fun other hother a ha => ?_
    have hnot : a ∉ slot.extent := fun hmem =>
      Set.disjoint_left.mp (hapart other hother) hmem ha
    have hside : a < slot.address ∨ slot.address + slot.size ≤ a := by
      by_contra hin
      exact hnot ⟨by omega, by omega⟩
    exact hout a (by omega) (by omega)
  refine ⟨⟨rfl, ?_⟩, ?_, ?_, ?_, List.pairwise_cons.mpr ⟨hapart, h.apart⟩⟩
  · have hlink : (pushFront env list slot.address).memory (slot.address + 8) = list.head :=
      Function.update_self _ _ _
    rw [hlink]
    exact hrest.linked
  · exact List.forall_mem_cons.mpr ⟨hfits, h.fits⟩
  · exact List.forall_mem_cons.mpr ⟨hsized.congr (hout _ (by omega) (by omega)), hrest.sized⟩
  · refine List.forall_mem_cons.mpr ⟨fun a hlow hhigh => ?_, hrest.blank⟩
    exact (Function.update_of_ne (by omega) _ _).trans (hblank a hlow hhigh)

/-- `PopFront` on the sequence of slots: the first one, if it has the size that is asked for. -/
def takeFirst : List Slot → Nat → Nat × List Slot
  | [], _ => (0, [])
  | slot :: slots, size => if size = slot.size then (slot.address, slots) else (0, slot :: slots)

/-- `PopFront` in terms of the slots. -/
theorem Represents.popFront_nil {list : Links} (h : Represents env list []) (size : Nat) :
    popFront env list size = (0, list) := by
  have hhead : list.head = 0 := h.linked
  rw [popFront, if_pos (Or.inl hhead)]

/-- A pop hands out the first slot if it has the size, and leaves the list otherwise. -/
theorem Represents.popFront_cons {list : Links} {slots : List Slot}
    (h : Represents env list (slot :: slots)) (size : Nat) :
    popFront env list size =
      if size = slot.size then
        (slot.address, ⟨Function.update list.memory (slot.address + 8) 0,
          list.memory (slot.address + 8)⟩)
      else (0, list) := by
  have hhead : list.head = slot.address := h.linked.1
  have hpos := (h.fits slot List.mem_cons_self).address_pos
  have hsize := (h.sized slot List.mem_cons_self).size_eq
  by_cases heq : size = slot.size
  · have hserved : ¬ (slot.address = 0 ∨ size ≠ slot.size) := by
      rintro (hzero | hne)
      · omega
      · exact hne heq
    rw [popFront, hhead, hsize, if_neg hserved, if_pos heq]
  · rw [popFront, hhead, hsize, if_pos (Or.inr heq), if_neg heq]

/-- The link of the first slot lies in no other. -/
theorem Represents.unlink_others {list : Links} {slots : List Slot}
    (h : Represents env list (slot :: slots)) :
    ∀ other ∈ slots, ∀ a ∈ other.extent,
      Function.update list.memory (slot.address + 8) 0 a = list.memory a := by
  intro other hother a ha
  refine Function.update_of_ne ?_ _ _
  rintro rfl
  exact Set.disjoint_left.mp ((List.pairwise_cons.mp h.apart).1 other hother)
    (h.fits slot List.mem_cons_self).link_mem ha

/-- Without its first slot, and with that slot's link written, the list stands for the others. -/
theorem Represents.unlink {list : Links} {slots : List Slot}
    (h : Represents env list (slot :: slots)) :
    Represents env ⟨Function.update list.memory (slot.address + 8) 0,
      list.memory (slot.address + 8)⟩ slots := by
  have htail : Represents env ⟨list.memory, list.memory (slot.address + 8)⟩ slots :=
    ⟨h.linked.2, fun other ho => h.fits other (List.mem_cons_of_mem _ ho),
      fun other ho => h.sized other (List.mem_cons_of_mem _ ho),
      fun other ho => h.blank other (List.mem_cons_of_mem _ ho), (List.pairwise_cons.mp h.apart).2⟩
  exact htail.congr h.unlink_others

/-- **A pop.**  It gives what the stack gives and represents the stack that is left, also when the
    first slot does not have the size asked for. -/
theorem Represents.pop {list : Links} {slots : List Slot} (h : Represents env list slots)
    (size : Nat) :
    (popFront env list size).1 = (takeFirst slots size).1 ∧
      Represents env (popFront env list size).2 (takeFirst slots size).2 := by
  cases slots with
  | nil =>
    rw [h.popFront_nil]
    exact ⟨rfl, h⟩
  | cons slot slots =>
    rw [h.popFront_cons, takeFirst]
    by_cases heq : size = slot.size
    · rw [if_pos heq, if_pos heq]
      exact ⟨rfl, h.unlink⟩
    · rw [if_neg heq, if_neg heq]
      exact ⟨rfl, h⟩

/-- The list, and the slots it stands for. -/
structure State where
  list : Links
  slots : List Slot

/-- An operation, or a write of a caller. -/
inductive Action
  | pushFront (slot : Slot)
  | popFront (size : Nat)
  | clear
  | write (address value : Nat)

/-- What callers see to: a slot is pushed as an object with a size, and is not in the list, nor does
    it overlap what is; and nobody writes to the slots in the list. -/
def Action.Allowed (env : Foreign) (s : State) : Action → Prop
  | .pushFront slot => slot.Fits env ∧ slot.Sized env s.list.memory ∧
      ∀ other ∈ s.slots, Disjoint slot.extent other.extent
  | .popFront _ => True
  | .clear => True
  | .write address _ => ∀ slot ∈ s.slots, address ∉ slot.extent

/-- An operation, on the memory and on the slots that it should have. -/
def Action.exec (env : Foreign) (s : State) : Action → State
  | .pushFront slot => ⟨SlotList.pushFront env s.list slot.address, slot :: s.slots⟩
  | .popFront size => ⟨(SlotList.popFront env s.list size).2, (takeFirst s.slots size).2⟩
  | .clear => ⟨SlotList.clear s.list, []⟩
  | .write address value =>
    ⟨{ s.list with memory := Function.update s.list.memory address value }, s.slots⟩

/-- The list starts empty, in any memory. -/
def machine (env : Foreign) : Runs.System State Action where
  init s := s.list.head = 0 ∧ s.slots = []
  step s a s' := a.Allowed env s ∧ s' = a.exec env s

/-- Without a head there are no slots. -/
theorem represents_nil {list : Links} (h : list.head = 0) : Represents env list [] :=
  ⟨h, nofun, nofun, nofun, List.Pairwise.nil⟩

/-- **One operation.**  A write is allowed outside of the slots only, and so the frame rule is all
    that it needs. -/
theorem Represents.step {s : State} (h : Represents env s.list s.slots) {a : Action}
    (ha : a.Allowed env s) : Represents env (a.exec env s).list (a.exec env s).slots := by
  cases a with
  | pushFront slot =>
    obtain ⟨hfits, hsized, hapart⟩ := ha
    exact h.push hfits hsized hapart
  | popFront size => exact (h.pop size).2
  | clear => exact represents_nil rfl
  | write address value =>
    refine h.congr fun slot hslot a hmem => Function.update_of_ne ?_ _ _
    rintro rfl
    exact ha slot hslot hmem

end SlotList

end CangjieRuntime.Heap
