/-
  The scratch deques of the tree (`rt.heap.allocator/LocalDeque.cj`).

  A `LocalDeque` lives on the stack: 512 values in an inline array, and what does not fit goes to a
  `SingleUseDeque`, a mapping that is filled from its beginning and never reuses the room in front
  of its first value.  Neither checks its bounds.  The embedding:

    * `front` and `top` of the local array are the signed indices of the source, and the
      `SingleUseDeque` is its addresses in bytes;
    * the mapping is a function from addresses to values, and so may hold anything at first;
    * an access outside the array or the mapping is a fault, where the source would go on.

  `Rep d j l` says that `d` holds the values `l`, after `j` values have been taken from the front.
  The same deque serves as a queue (`Push`, `PopFront`) and as a stack (`Push`, `Pop`), but never
  as both, and so the specification of `Pop` asks for `j = 0`.
-/
import Mathlib

set_option linter.unusedVariables false

namespace CangjieRuntime.Heap

/-- What an operation on a deque stops with: an access outside the storage. -/
inductive DequeFault
  | outOfBounds
  deriving DecidableEq, Repr

/-- `SingleUseDeque`, without the `MemMap` it was made from. -/
structure SingleUseDeque where
  beginAddr : Nat
  frontAddr : Nat
  topAddr : Nat
  endAddr : Nat
  deriving DecidableEq, Repr

abbrev DEQUE_VAL_SIZE : Nat := 8

def LOCAL_LENGTH : Nat := 512

/-- `LocalDeque`, with the `SingleUseDeque` it spills to and the mapping behind that. -/
structure LocalDeque (α : Type) where
  front : Int
  top : Int
  array : Int → α
  sud : SingleUseDeque
  mapping : Nat → α

namespace SingleUseDeque

/-- `Empty`. -/
def isEmpty (s : SingleUseDeque) : Bool := s.topAddr < s.frontAddr

/-- `Clear`: the range is empty, at the start of the mapping. -/
def clear (s : SingleUseDeque) : SingleUseDeque :=
  { s with frontAddr := s.beginAddr, topAddr := s.beginAddr - DEQUE_VAL_SIZE }

/-- A word of the mapping starts at this address. -/
def Within (s : SingleUseDeque) (addr : Nat) : Prop :=
  s.beginAddr ≤ addr ∧ addr + DEQUE_VAL_SIZE ≤ s.endAddr

instance (s : SingleUseDeque) (addr : Nat) : Decidable (s.Within addr) :=
  inferInstanceAs (Decidable (_ ∧ _))

/-- What `Init` leaves, whatever was done with the deque since: a mapping that is not at address
    0, with room for `capacity` values. -/
structure Mapped (s : SingleUseDeque) (capacity : Nat) : Prop where
  pos : DEQUE_VAL_SIZE ≤ s.beginAddr
  room : s.beginAddr + DEQUE_VAL_SIZE * capacity ≤ s.endAddr

end SingleUseDeque

namespace LocalDeque

variable {α : Type}

/-! ## The operations -/

/-- `LocalDeque(sud)`; the array starts with nulls. -/
def init (sud : SingleUseDeque) (mapping : Nat → α) (null : α) : LocalDeque α :=
  { front := 0, top := -1, array := fun _ => null, sud := sud, mapping := mapping }

/-- `SingleUseDeque.Push`. -/
def sudPush (d : LocalDeque α) (v : α) : Except DequeFault (LocalDeque α) :=
  let top := d.sud.topAddr + DEQUE_VAL_SIZE
  if d.sud.Within top then
    .ok { d with sud := { d.sud with topAddr := top }, mapping := Function.update d.mapping top v }
  else .error .outOfBounds

/-- A read through an address of the mapping. -/
def sudRead (d : LocalDeque α) (addr : Nat) : Except DequeFault α :=
  if d.sud.Within addr then .ok (d.mapping addr) else .error .outOfBounds

/-- A read of the local array. -/
def arrayRead (d : LocalDeque α) (i : Int) : Except DequeFault α :=
  if 0 ≤ i ∧ i < LOCAL_LENGTH then .ok (d.array i) else .error .outOfBounds

/-- `Empty`. -/
def isEmpty (d : LocalDeque α) : Bool :=
  d.top < d.front || (d.front = LOCAL_LENGTH && d.sud.isEmpty)

/-- `Push`: into the array while it has room, then into the mapping. -/
def push (d : LocalDeque α) (v : α) : Except DequeFault (LocalDeque α) :=
  if d.top < LOCAL_LENGTH - 1 then
    let top := d.top + 1
    if 0 ≤ top then .ok { d with top := top, array := Function.update d.array top v }
    else .error .outOfBounds
  else if d.top = LOCAL_LENGTH - 1 then
    sudPush { d with top := d.top + 1, sud := d.sud.clear } v
  else d.sudPush v

/-- `Top`: the last value, in the array or in the mapping. -/
def topValue (d : LocalDeque α) : Except DequeFault α :=
  if d.top < LOCAL_LENGTH then d.arrayRead d.top else d.sudRead d.sud.topAddr

/-- `Pop`: when the mapping gets empty, the deque goes back to the array. -/
def pop (d : LocalDeque α) : LocalDeque α :=
  if d.top < LOCAL_LENGTH then { d with top := d.top - 1 }
  else
    let d := { d with sud := { d.sud with topAddr := d.sud.topAddr - DEQUE_VAL_SIZE } }
    if d.sud.isEmpty then
      if d.front = LOCAL_LENGTH then { d with front := 0, top := -1 }
      else if d.front < LOCAL_LENGTH then { d with top := d.top - 1 }
      else d
    else d

/-- `Front`: the first value, in the array or in the mapping. -/
def frontValue (d : LocalDeque α) : Except DequeFault α :=
  if d.front < LOCAL_LENGTH then d.arrayRead d.front else d.sudRead d.sud.frontAddr

/-- `PopFront`: the first value goes; nothing goes back to the array here. -/
def popFront (d : LocalDeque α) : LocalDeque α :=
  if d.front < LOCAL_LENGTH then { d with front := d.front + 1 }
  else { d with sud := { d.sud with frontAddr := d.sud.frontAddr + DEQUE_VAL_SIZE } }

/-! ## What a deque holds -/

/-- The address of the `i`th value of a deque that has spilled. -/
def slotAddr (beginAddr i : Nat) : Nat := beginAddr + DEQUE_VAL_SIZE * (i - LOCAL_LENGTH)

/-- `d` holds `l`, after `j` values were taken from the front, in storage for `capacity` values
    besides the array. -/
structure Rep (capacity : Nat) (d : LocalDeque α) (j : Nat) (l : List α) : Prop where
  mapped : d.sud.Mapped capacity
  le : j + l.length ≤ capacity
  front : d.front = min j LOCAL_LENGTH
  top : d.top = if j + l.length ≤ LOCAL_LENGTH then (j + l.length : Int) - 1 else LOCAL_LENGTH
  array : ∀ i v, l[i]? = some v → j + i < LOCAL_LENGTH → d.array (j + i : Nat) = v
  sudTop : LOCAL_LENGTH < j + l.length →
    d.sud.topAddr + DEQUE_VAL_SIZE = slotAddr d.sud.beginAddr (j + l.length)
  sudFront : LOCAL_LENGTH < j + l.length → d.sud.frontAddr = slotAddr d.sud.beginAddr j
  mapping : ∀ i v, l[i]? = some v → LOCAL_LENGTH ≤ j + i →
    d.mapping (slotAddr d.sud.beginAddr (j + i)) = v

variable {capacity j : Nat} {d : LocalDeque α} {l : List α}

theorem rep_init {sud : SingleUseDeque} (h : sud.Mapped capacity) (mapping : Nat → α) (null : α) :
    Rep capacity (init sud mapping null) 0 [] where
  mapped := h
  le := Nat.zero_le capacity
  front := rfl
  top := rfl
  array := fun i v hv => absurd hv (by simp)
  sudTop := fun hlt => absurd hlt (by simp)
  sudFront := fun hlt => absurd hlt (by simp)
  mapping := fun i v hv => absurd hv (by simp)

/-- A value that was already there, or the new last one. -/
theorem getElem?_concat {i : Nat} {v w : α} (h : (l ++ [w])[i]? = some v) :
    (i < l.length ∧ l[i]? = some v) ∨ (i = l.length ∧ v = w) := by
  rcases Nat.lt_trichotomy i l.length with hlt | heq | hgt
  · rw [List.getElem?_append_left hlt] at h
    exact Or.inl ⟨hlt, h⟩
  · subst heq
    rw [List.getElem?_concat_length] at h
    exact Or.inr ⟨rfl, (Option.some.inj h).symm⟩
  · rw [List.getElem?_eq_none (by simp; omega)] at h
    exact absurd h nofun

/-- **`Push`** stays in bounds as long as fewer than `capacity` values were ever pushed, and puts
    the value at the end. -/
theorem Rep.push (h : Rep capacity d j l) (v : α) (hroom : j + l.length < capacity) :
    ∃ d', d.push v = .ok d' ∧ Rep capacity d' j (l ++ [v]) := by
  have htop := h.top
  have hlen : (l ++ [v]).length = l.length + 1 := by simp
  -- where the new value goes depends on how many came before it
  rcases Nat.lt_trichotomy (j + l.length) LOCAL_LENGTH with hlt | heq | hgt
  · -- there is room in the array
    rw [if_pos (by omega)] at htop
    let array := Function.update d.array (j + l.length : Int) v
    have hpush : d.push v = .ok { d with top := (j + l.length : Int), array := array } := by
      rw [LocalDeque.push, htop, if_pos (by omega), if_pos (by omega)]
      simp only [Int.sub_add_cancel, array]
    refine ⟨_, hpush, h.mapped, by omega, h.front, ?_, fun i w hw hi => ?_, fun hc => ?_, fun hc => ?_,
      fun i w hw hi => ?_⟩
    · rw [hlen, if_pos (by omega)]
      simp only
      omega
    · rcases getElem?_concat hw with ⟨hil, hw⟩ | ⟨rfl, rfl⟩
      · show Function.update d.array _ v (j + i : Nat) = w
        rw [Function.update_of_ne (by omega)]
        exact h.array i w hw hi
      · exact Function.update_self ..
    · omega
    · omega
    · have := (List.getElem?_eq_some_iff.mp hw).1
      omega
  · -- the array is full: the mapping is started anew
    rw [if_pos (by omega)] at htop
    have htop' : d.top = LOCAL_LENGTH - 1 := by omega
    have hbegin := h.mapped.pos
    have hmap := h.mapped.room
    simp only [DEQUE_VAL_SIZE] at hbegin hmap
    have haddr : d.sud.clear.topAddr + DEQUE_VAL_SIZE = d.sud.beginAddr := by
      simp only [SingleUseDeque.clear, DEQUE_VAL_SIZE]
      omega
    have hwithin : d.sud.clear.Within d.sud.beginAddr := by
      simp only [SingleUseDeque.Within, SingleUseDeque.clear, DEQUE_VAL_SIZE]
      omega
    let sud := { d.sud.clear with topAddr := d.sud.beginAddr }
    let mapping := Function.update d.mapping d.sud.beginAddr v
    have hpush : d.push v = .ok { d with top := d.top + 1, sud := sud, mapping := mapping } := by
      rw [LocalDeque.push, if_neg (by omega), if_pos htop', sudPush]
      simp only [haddr, if_pos hwithin]
      rfl
    refine ⟨_, hpush, ⟨h.mapped.pos, h.mapped.room⟩, by omega, h.front, ?_, fun i w hw hi => ?_,
      fun hc => ?_, fun hc => ?_, fun i w hw hi => ?_⟩
    · rw [hlen, if_neg (by omega)]
      simp only [htop']
      omega
    · rcases getElem?_concat hw with ⟨hil, hw⟩ | ⟨rfl, rfl⟩
      · exact h.array i w hw hi
      · omega
    · rw [hlen]
      simp only [slotAddr, SingleUseDeque.clear, DEQUE_VAL_SIZE, sud]
      omega
    · simp only [slotAddr, SingleUseDeque.clear, DEQUE_VAL_SIZE, sud]
      omega
    · rcases getElem?_concat hw with ⟨hil, hw⟩ | ⟨rfl, hwv⟩
      · omega
      · rw [hwv]
        have hslot : slotAddr d.sud.beginAddr (j + l.length) = d.sud.beginAddr := by
          simp only [slotAddr, DEQUE_VAL_SIZE]
          omega
        simp only [mapping, sud, SingleUseDeque.clear, hslot, Function.update_self]
  · -- the deque has spilled already
    rw [if_neg (by omega)] at htop
    have hsud := h.sudTop hgt
    have hmap := h.mapped.room
    simp only [slotAddr, DEQUE_VAL_SIZE] at hsud hmap
    have hwithin : d.sud.Within (d.sud.topAddr + DEQUE_VAL_SIZE) := by
      simp only [SingleUseDeque.Within, DEQUE_VAL_SIZE]
      omega
    let sud := { d.sud with topAddr := d.sud.topAddr + DEQUE_VAL_SIZE }
    let mapping := Function.update d.mapping (d.sud.topAddr + DEQUE_VAL_SIZE) v
    have hpush : d.push v = .ok { d with sud := sud, mapping := mapping } := by
      rw [LocalDeque.push, if_neg (by omega),
        if_neg (by omega), sudPush]
      simp only [if_pos hwithin]
      rfl
    refine ⟨_, hpush, ⟨h.mapped.pos, h.mapped.room⟩, by omega, h.front, ?_, fun i w hw hi => ?_,
      fun hc => ?_, fun hc => h.sudFront hgt, fun i w hw hi => ?_⟩
    · rw [hlen, if_neg (by omega)]
      exact htop
    · rcases getElem?_concat hw with ⟨hil, hw⟩ | ⟨rfl, rfl⟩
      · exact h.array i w hw hi
      · omega
    · rw [hlen]
      simp only [slotAddr, DEQUE_VAL_SIZE, sud]
      omega
    · have hne : ∀ k, k < l.length → LOCAL_LENGTH ≤ j + k →
          slotAddr d.sud.beginAddr (j + k) ≠ d.sud.topAddr + DEQUE_VAL_SIZE := by
        intro k hk hjk
        simp only [slotAddr, DEQUE_VAL_SIZE]
        omega
      rcases getElem?_concat hw with ⟨hil, hw⟩ | ⟨rfl, hwv⟩
      · simp only [mapping, sud, Function.update_of_ne (hne i hil hi)]
        exact h.mapping i w hw hi
      · simp only [mapping, sud, ← h.sudTop hgt, Function.update_self, hwv]

/-- **`Empty`.** -/
theorem Rep.isEmpty_iff (h : Rep capacity d j l) : d.isEmpty = true ↔ l = [] := by
  have hfront := h.front
  have htop := h.top
  have hiff : d.isEmpty = true ↔
      d.top < d.front ∨ (d.front = LOCAL_LENGTH ∧ d.sud.topAddr < d.sud.frontAddr) := by
    rw [LocalDeque.isEmpty, Bool.or_eq_true, Bool.and_eq_true, decide_eq_true_eq,
      decide_eq_true_eq, SingleUseDeque.isEmpty, decide_eq_true_eq]
  rw [hiff, ← List.length_eq_zero_iff]
  rcases Nat.lt_or_ge LOCAL_LENGTH (j + l.length) with hlt | hle
  · have h1 := h.sudTop hlt
    have h2 := h.sudFront hlt
    rw [if_neg (by omega)] at htop
    simp only [slotAddr, DEQUE_VAL_SIZE] at h1 h2 ⊢
    omega
  · rw [if_pos hle] at htop
    omega

/-- A word of the mapping that holds a value is in bounds. -/
theorem Rep.within (h : Rep capacity d j l) {i : Nat} (hi : i < l.length)
    (hji : LOCAL_LENGTH ≤ j + i) : d.sud.Within (slotAddr d.sud.beginAddr (j + i)) := by
  have hle := h.le
  have hmap := h.mapped.room
  simp only [SingleUseDeque.Within, slotAddr, DEQUE_VAL_SIZE] at hmap ⊢
  omega

/-- **`Front`** of a queue that is not empty. -/
theorem Rep.frontValue {a : α} (h : Rep capacity d j (a :: l)) : d.frontValue = .ok a := by
  have hfront := h.front
  have hlen : (a :: l).length = l.length + 1 := rfl
  rw [LocalDeque.frontValue]
  rcases Nat.lt_or_ge j LOCAL_LENGTH with hlt | hge
  · have hval := h.array 0 a rfl hlt
    have hj : d.front = j := by omega
    rw [if_pos (by omega), arrayRead, if_pos (by omega), hj]
    exact congrArg _ hval
  · have hval := h.mapping 0 a rfl hge
    have hwithin := h.within (i := 0) (by omega) hge
    rw [Nat.add_zero] at hwithin
    rw [if_neg (by omega), h.sudFront (by omega), sudRead, if_pos hwithin]
    exact congrArg _ hval

/-- **`PopFront`** of a queue that is not empty. -/
theorem Rep.popFront {a : α} (h : Rep capacity d j (a :: l)) :
    Rep capacity d.popFront (j + 1) l := by
  have hfront := h.front
  have htop := h.top
  have hlen : (a :: l).length = l.length + 1 := rfl
  have hsum : j + (a :: l).length = j + 1 + l.length := by omega
  have hindex : ∀ i, j + 1 + i = j + (i + 1) := fun i => by omega
  rw [LocalDeque.popFront]
  split
  case isTrue hlt =>
    have hle := h.le
    refine ⟨h.mapped, by omega, ?_, ?_, fun i v hv hi => ?_, fun hc => ?_, fun hc => ?_,
      fun i v hv hi => ?_⟩
    · simp only
      omega
    · simp only [htop]
      split <;> split <;> omega
    · rw [hindex]
      exact h.array (i + 1) v hv (by omega)
    · rw [← hsum]
      exact h.sudTop (by omega)
    · rw [h.sudFront (by omega), slotAddr, slotAddr, Nat.sub_eq_zero_of_le (by omega),
        Nat.sub_eq_zero_of_le (by omega)]
    · rw [hindex]
      exact h.mapping (i + 1) v hv (by omega)
  case isFalse hge =>
    have hle := h.le
    refine ⟨⟨h.mapped.pos, h.mapped.room⟩, by omega, ?_, ?_, fun i v hv hi => ?_, fun hc => ?_,
      fun hc => ?_, fun i v hv hi => ?_⟩
    · simp only
      omega
    · simp only [htop]
      split <;> split <;> omega
    · omega
    · rw [← hsum]
      exact h.sudTop (by omega)
    · have := h.sudFront (by omega)
      simp only [slotAddr, DEQUE_VAL_SIZE] at this ⊢
      omega
    · rw [hindex]
      exact h.mapping (i + 1) v hv (by omega)

/-- **`Top`** of a stack that is not empty. -/
theorem Rep.topValue {a : α} (h : Rep capacity d 0 (l ++ [a])) : d.topValue = .ok a := by
  have htop := h.top
  have hlen : (l ++ [a]).length = l.length + 1 := by simp
  have hlast : (l ++ [a])[l.length]? = some a := List.getElem?_concat_length
  rw [LocalDeque.topValue]
  rcases Nat.lt_or_ge LOCAL_LENGTH (0 + (l ++ [a]).length) with hlt | hle
  · rw [if_neg (by omega)] at htop
    have hval := h.mapping l.length a hlast (by omega)
    have hsud := h.sudTop hlt
    have haddr : d.sud.topAddr = slotAddr d.sud.beginAddr (0 + l.length) := by
      simp only [slotAddr, DEQUE_VAL_SIZE] at hsud ⊢
      omega
    rw [if_neg (by omega), haddr, sudRead, if_pos (h.within (by omega) (by omega))]
    exact congrArg _ hval
  · rw [if_pos hle] at htop
    have hval := h.array l.length a hlast (by omega)
    have htop' : d.top = (0 + l.length : Nat) := by omega
    rw [if_pos (by omega), arrayRead, if_pos (by omega), htop']
    exact congrArg _ hval

/-- **`Pop`** of a stack that is not empty. -/
theorem Rep.pop {a : α} (h : Rep capacity d 0 (l ++ [a])) : Rep capacity d.pop 0 l := by
  have hfront := h.front
  have htop := h.top
  have hlen : (l ++ [a]).length = l.length + 1 := by simp
  have hmem : ∀ i v, l[i]? = some v → (l ++ [a])[i]? = some v := fun i v hv => by
    rw [List.getElem?_append_left (List.getElem?_eq_some_iff.mp hv).1, hv]
  have hlt : ∀ i v, l[i]? = some v → i < l.length := fun i v hv =>
    (List.getElem?_eq_some_iff.mp hv).1
  -- the last value is in the mapping, or in the array
  rcases Nat.lt_or_ge LOCAL_LENGTH (0 + (l ++ [a]).length) with hspill | hle
  · rw [if_neg (by omega)] at htop
    have hsud := h.sudTop hspill
    have hsudFront := h.sudFront hspill
    have hbegin := h.mapped.pos
    simp only [slotAddr, DEQUE_VAL_SIZE] at hsud hsudFront hbegin
    let sud := { d.sud with topAddr := d.sud.topAddr - DEQUE_VAL_SIZE }
    have hsudEq : { d.sud with topAddr := d.sud.topAddr - DEQUE_VAL_SIZE } = sud := rfl
    have hempty : sud.isEmpty = true ↔ l.length = LOCAL_LENGTH := by
      simp only [SingleUseDeque.isEmpty, sud, decide_eq_true_eq, DEQUE_VAL_SIZE]
      omega
    have hmapped : sud.Mapped capacity := ⟨h.mapped.pos, h.mapped.room⟩
    have hmapping : ∀ i v, l[i]? = some v → LOCAL_LENGTH ≤ 0 + i →
        d.mapping (slotAddr d.sud.beginAddr (0 + i)) = v :=
      fun i v hv hi => h.mapping i v (hmem i v hv) hi
    have hle := h.le
    rw [LocalDeque.pop, if_neg (by omega)]
    by_cases hback : l.length = LOCAL_LENGTH
    · -- the last value in the mapping goes, and the next one is in the array again
      have hpos : 0 < LOCAL_LENGTH := by decide
      simp only [hsudEq, if_pos (hempty.mpr hback),
        if_neg (show ¬ d.front = LOCAL_LENGTH by omega),
        if_pos (show d.front < LOCAL_LENGTH by omega)]
      refine ⟨hmapped, by omega, h.front, ?_, fun i v hv hi => h.array i v (hmem i v hv) hi,
        fun hc => ?_, fun hc => ?_, hmapping⟩
      · rw [if_pos (by omega)]
        simp only
        omega
      · omega
      · omega
    · simp only [hsudEq, if_neg (fun hc => hback (hempty.mp hc))]
      refine ⟨hmapped, by omega, h.front, ?_, fun i v hv hi => h.array i v (hmem i v hv) hi,
        fun hc => ?_, fun hc => hsudFront, hmapping⟩
      · rw [if_neg (by omega)]
        exact htop
      · simp only [slotAddr, sud, DEQUE_VAL_SIZE]
        omega
  · rw [if_pos hle] at htop
    rw [LocalDeque.pop, if_pos (by omega)]
    have hle' := h.le
    refine ⟨h.mapped, by omega, h.front, ?_, fun i v hv hi => h.array i v (hmem i v hv) hi, fun hc => ?_,
      fun hc => ?_, fun i v hv hi => h.mapping i v (hmem i v hv) hi⟩
    · rw [if_pos (by omega)]
      simp only
      omega
    · omega
    · omega

end LocalDeque

end CangjieRuntime.Heap
