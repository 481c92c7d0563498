/-
  The packed state of a region under concurrent setters (`rt.heap.allocator/RegionInfo.cj`).

  The 16-bit state of a region has its type in four bits and five flags, and the role byte of a unit
  two roles of four bits.  Every setter is a compare-and-swap loop that replaces one field
  (`SetAtomicValue`), so that the threads are those of `CasLoop`.  A field is what was put into it
  last, whatever the other setters do at the same time (`regionFields_exact`).
-/
import CangjieRuntime.Lib.CasLoop
import CangjieRuntime.Heap.RegionInfo

set_option linter.unusedVariables false

namespace CangjieRuntime.Heap

namespace RegionInfo

/-! ## The fields -/

abbrev IN_GHOST_FROM_REGION_FLAG : Nat := 5

/-- `BitFieldU16.GetAtomicValue`, of the word that was loaded. -/
def getAtomicValueU16 (field pos bitLen : Nat) : Nat :=
  field &&& ((1 <<< bitLen) % 2 ^ 64 - 1) <<< pos % 2 ^ 64 % 2 ^ 16

/-- `GetRegionType`. -/
def getRegionType (field : Nat) : Nat := getAtomicValueU16 field REGION_TYPE_FLAG BIT_LENGTH % 2 ^ 8

/-- Fields of a word that do not overlap.  A position and a length for each field; that they are
    apart is a field of the structure, and so a layout that overlaps cannot be written down. -/
structure FieldLayout (F : Type) where
  width : Nat
  pos : F → Nat
  bitLen : F → Nat
  width_le : width ≤ 16
  fits : ∀ f, pos f + bitLen f ≤ width
  disjoint : ∀ f g, f ≠ g → pos f + bitLen f ≤ pos g ∨ pos g + bitLen g ≤ pos f

/-- The fields that `SetRegionType`, `SetTraceRegionFlag`, `SetInGhostRegion`, `SetMarkedRegionFlag`,
    `SetEnqueuedRegionFlag` and `SetResurrectedRegionFlag` set. -/
inductive StateField
  | regionType
  | traceRegion
  | inGhostRegion
  | markedRegion
  | enqueuedRegion
  | resurrectedRegion
  deriving DecidableEq, Repr

def StateField.pos : StateField → Nat
  | .regionType => REGION_TYPE_FLAG
  | .traceRegion => TRACE_REGION_FLAG
  | .inGhostRegion => IN_GHOST_FROM_REGION_FLAG
  | .markedRegion => MARKED_REGION_FLAG
  | .enqueuedRegion => ENQUEUED_REGION_FLAG
  | .resurrectedRegion => RESURRECTED_REGION_FLAG

def StateField.bitLen : StateField → Nat
  | .regionType => BIT_LENGTH
  | _ => 1

/-- `regionStateBitField`. -/
def regionState : FieldLayout StateField where
  width := 16
  pos := StateField.pos
  bitLen := StateField.bitLen
  width_le := Nat.le_refl 16
  fits := by
    intro f
    cases f <;> decide
  disjoint := by
    intro f g
    cases f <;> cases g <;> decide

/-- The fields that `SetUnitRole` and `SetUnitRole0` set. -/
inductive RoleField
  | unitRole
  | unitRole0
  deriving DecidableEq, Repr

def RoleField.pos : RoleField → Nat
  | .unitRole => 0
  | .unitRole0 => BIT_LENGTH

/-- `unitRoleBitField`. -/
def unitRoles : FieldLayout RoleField where
  width := 8
  pos := RoleField.pos
  bitLen := fun _ => BIT_LENGTH
  width_le := by decide
  fits := by
    intro f
    cases f <;> decide
  disjoint := by
    intro f g
    cases f <;> cases g <;> decide

namespace FieldLayout

variable {F : Type} (L : FieldLayout F)

/-- What a field holds. -/
def get (f : F) (word : Nat) : Nat := (word >>> L.pos f) % 2 ^ L.bitLen f

/-- The word that `SetAtomicValue` puts in for the word it expects. -/
def set (u : F × UInt8) (word : Nat) : Nat :=
  setAtomicValuePart2 word (L.pos u.1) (L.bitLen u.1) u.2.toNat (2 ^ L.width - 1) % 2 ^ L.width

/-- The field has this bit of the word.  By the structure at most one field has a given bit. -/
def Has (f : F) (i : Nat) : Prop := L.pos f ≤ i ∧ i < L.pos f + L.bitLen f

instance (f : F) (i : Nat) : Decidable (L.Has f i) := inferInstanceAs (Decidable (_ ∧ _))

end FieldLayout

/-- The two words are set by `SetAtomicValueU16` and by `SetAtomicValueU8`. -/
example (f : StateField) (g : RoleField) (v : UInt8) (word : Nat) :
    regionState.set (f, v) word = setAtomicValueU16 word f.pos f.bitLen v.toNat ∧
      unitRoles.set (g, v) word = setAtomicValueU8 word g.pos BIT_LENGTH v.toNat := ⟨rfl, rfl⟩

/-! ## Bits -/

namespace FieldLayout

variable {F : Type} (L : FieldLayout F)

/-- The bits of the mask of a field. -/
theorem testBit_mask (f : F) (i : Nat) :
    (((1 <<< L.bitLen f) % 2 ^ 64 - 1) <<< L.pos f % 2 ^ 64).testBit i = decide (L.Has f i) := by
  have hfits := L.fits f
  have hwidth := L.width_le
  have hlen : 2 ^ L.bitLen f < 2 ^ 64 := Nat.pow_lt_pow_right (by decide) (by omega)
  rw [Nat.one_shiftLeft, Nat.mod_eq_of_lt hlen, Nat.testBit_mod_two_pow, Nat.testBit_shiftLeft,
    Nat.testBit_two_pow_sub_one]
  unfold Has
  by_cases hpos : L.pos f ≤ i
  · by_cases hi : i < L.pos f + L.bitLen f
    · simp [hpos, hi, show i < 64 by omega, show i - L.pos f < L.bitLen f by omega]
    · simp [hpos, hi, show ¬ i - L.pos f < L.bitLen f by omega]
  · simp [hpos]

/-- **The bits of a word with a field replaced.**  Inside of the field they are those of the value,
    outside those of the word; all else about fields is read off this. -/
theorem testBit_set (f : F) (v : UInt8) (word i : Nat) (hi : i < L.width) :
    (L.set (f, v) word).testBit i =
      if L.Has f i then v.toNat.testBit (i - L.pos f) else word.testBit i := by
  have hfits := L.fits f
  have hwidth := L.width_le
  rw [set, setAtomicValuePart2, Nat.testBit_mod_two_pow, Nat.testBit_or, Nat.testBit_and,
    Nat.testBit_and, Nat.testBit_xor, Nat.testBit_two_pow_sub_one, testBit_mask,
    Nat.testBit_mod_two_pow, Nat.testBit_shiftLeft]
  by_cases hhas : L.Has f i
  · rw [if_pos hhas]
    simp [hi, hhas, hhas.1, show i < 64 by omega]
  · rw [if_neg hhas]
    simp [hi, hhas]

variable [DecidableEq F]

theorem get_set (f g : F) (v : UInt8) (word : Nat) :
    L.get g (L.set (f, v) word) = if f = g then v.toNat % 2 ^ L.bitLen g else L.get g word := by
  have hfits := L.fits g
  refine Nat.eq_of_testBit_eq fun j => ?_
  have hget : ∀ w, (L.get g w).testBit j = (decide (j < L.bitLen g) && w.testBit (L.pos g + j)) := by
    intro w
    rw [get, Nat.testBit_mod_two_pow, Nat.testBit_shiftRight]
  rw [hget]
  by_cases hj : j < L.bitLen g
  · rw [testBit_set L f v word _ (by omega)]
    by_cases hfg : f = g
    · subst hfg
      have hhas : L.Has f (L.pos f + j) := ⟨Nat.le_add_right _ _, by omega⟩
      rw [if_pos hhas, if_pos rfl, Nat.add_sub_cancel_left, Nat.testBit_mod_two_pow]
    · have hhas : ¬ L.Has f (L.pos g + j) := by
        rintro ⟨hle, hlt⟩
        rcases L.disjoint f g hfg with h | h
        · omega
        · omega
      rw [if_neg hhas, if_neg hfg, hget]
  · rw [decide_eq_false hj, Bool.false_and]
    split
    · rw [Nat.testBit_mod_two_pow, decide_eq_false hj, Bool.false_and]
    · rw [hget, decide_eq_false hj, Bool.false_and]

/-! ## Setters of many threads -/

variable {τ : Type} [DecidableEq τ]

/-- The last value that was put into a field, or what the first word holds there. -/
def lastWrite (log : List (τ × F × UInt8)) (word : Nat) (f : F) : Nat :=
  ((log.find? fun e => e.2.1 = f).map fun e => e.2.2.toNat % 2 ^ L.bitLen f).getD (L.get f word)

omit [DecidableEq τ] in
/-- A field of the word that a log makes. -/
theorem get_foldr (log : List (τ × F × UInt8)) (word : Nat) (f : F) :
    L.get f (log.foldr (fun e w => L.set e.2 w) word) = L.lastWrite log word f := by
  induction log with
  | nil => rfl
  | cons e log ih =>
    rw [List.foldr_cons, lastWrite, List.find?_cons]
    have hset := L.get_set e.2.1 f e.2.2 (log.foldr (fun e w => L.set e.2 w) word)
    by_cases hf : e.2.1 = f
    · rw [decide_eq_true hf]
      rw [if_pos hf] at hset
      exact hset
    · rw [decide_eq_false hf]
      rw [if_neg hf, ih] at hset
      exact hset

/-- The setters lose no update: a field is what was put into it last, and an action either leaves the
    word and lets no call return, or is the compare-and-swap of a call that returns with it and has
    replaced its field, and nothing else. -/
def Exact (word : Nat) (s : CasLoop.State Nat (F × UInt8) τ) : Prop :=
  (∀ f, L.get f s.word = L.lastWrite s.log word f) ∧
  ∀ a s', (CasLoop.system L.set τ word).step s a s' →
    (s'.word = s.word ∧ s'.log = s.log ∧ ∀ t, s.pc t ≠ .idle → s'.pc t ≠ .idle) ∨
    ∃ t f v, a = .atomic t ∧ s.pc t = .cas (f, v) s.word ∧ s'.pc t = .idle ∧
      s'.log = (t, f, v) :: s.log ∧ L.get f s'.word = v.toNat % 2 ^ L.bitLen f ∧
      ∀ i < L.width, ¬ L.Has f i → s'.word.testBit i = s.word.testBit i

theorem exact_of_reachable {word : Nat} {s : CasLoop.State Nat (F × UInt8) τ}
    (h : (CasLoop.system L.set τ word).Reachable s) : L.Exact word s := by
  refine ⟨fun f => ?_, ?_⟩
  · rw [CasLoop.word_eq word h, L.get_foldr]
  · rintro a s' rfl
    have hstep := CasLoop.exec_step L.set s a
    generalize CasLoop.exec L.set s a = s' at hstep
    cases hstep with
    | same => exact Or.inl ⟨rfl, rfl, fun t ht => ht⟩
    | goto t pc hpc =>
      refine Or.inl ⟨rfl, rfl, fun u hu => ?_⟩
      show Function.update s.pc t pc u ≠ .idle
      by_cases hut : u = t
      · subst hut
        rw [Function.update_self]
        exact hpc
      · rw [Function.update_of_ne hut]
        exact hu
    | put t u hpc =>
      refine Or.inr ⟨t, u.1, u.2, rfl, hpc, Function.update_self _ _ _, rfl, ?_, fun i hi hhas => ?_⟩
      · exact (L.get_set u.1 u.1 u.2 s.word).trans (if_pos rfl)
      · exact (L.testBit_set u.1 u.2 s.word i hi).trans (if_neg hhas)

end FieldLayout

/-- `GetRegionType` returns the field of the type. -/
theorem getRegionType_eq (word : Nat) : getRegionType word = regionState.get .regionType word := by
  have hmask :
      ((1 <<< BIT_LENGTH) % 2 ^ 64 - 1) <<< REGION_TYPE_FLAG % 2 ^ 64 % 2 ^ 16 = 2 ^ 4 - 1 := by
    decide
  rw [getRegionType, getAtomicValueU16, hmask, Nat.and_two_pow_sub_one_eq_mod]
  show word % 2 ^ 4 % 2 ^ 8 = word % 2 ^ 4
  omega

/-- **No update of a packed field is lost**, of the state of a region and of the roles of a unit.
    The setters retry a compare-and-swap on the whole word, and the one that succeeds has loaded the
    word it replaces; so the fields of other threads' calls are in it, whatever the order of the
    atomic steps. -/
theorem regionFields_exact (τ : Type) [DecidableEq τ] :
    (∀ word (s : CasLoop.State Nat (StateField × UInt8) τ),
      (CasLoop.system regionState.set τ word).Reachable s →
      regionState.Exact word s ∧ getRegionType s.word = regionState.get .regionType s.word) ∧
    ∀ word (s : CasLoop.State Nat (RoleField × UInt8) τ),
      (CasLoop.system unitRoles.set τ word).Reachable s → unitRoles.Exact word s :=
  ⟨fun word s h => ⟨regionState.exact_of_reachable h, getRegionType_eq s.word⟩,
    fun word s h => unitRoles.exact_of_reachable h⟩

/-- Two threads that load the same word: the second one finds the flag of the first, and keeps it. -/
theorem regionFields_exact_two : ∃ s : CasLoop.State Nat (StateField × UInt8) (Fin 2),
    s.word = 0x43 ∧ regionState.get .regionType s.word = 3 ∧
    regionState.get .markedRegion s.word = 1 := by
  let exec := @CasLoop.exec Nat (StateField × UInt8) (Fin 2) _ _ regionState.set
  let s₀ : CasLoop.State Nat (StateField × UInt8) (Fin 2) := ⟨0, fun _ => .idle, []⟩
  let s₁ := exec s₀ (.call 0 (.markedRegion, 1))
  let s₂ := exec s₁ (.call 1 (.regionType, 3))
  let s₃ := exec s₂ (.atomic 0)
  let s₄ := exec s₃ (.atomic 1)
  let s₅ := exec s₄ (.atomic 0)
  let s₆ := exec s₅ (.atomic 1)
  let s₇ := exec s₆ (.atomic 1)
  have hreach : (CasLoop.system regionState.set (Fin 2) 0).Reachable s₇ :=
    .step (.step (.step (.step (.step (.step (.step (.init (show s₀ = _ from rfl)) (show s₁ = _ from rfl))
      (show s₂ = _ from rfl)) (show s₃ = _ from rfl)) (show s₄ = _ from rfl))
      (show s₅ = _ from rfl)) (show s₆ = _ from rfl)) (show s₇ = _ from rfl)
  have hexact := ((regionFields_exact (Fin 2)).1 0 s₇ hreach).1.1
  refine ⟨s₇, by decide +kernel, (hexact .regionType).trans ?_, (hexact .markedRegion).trans ?_⟩
  · decide +kernel
  · decide +kernel

end RegionInfo

end CangjieRuntime.Heap
