/-
  A `LocalDeque` is a double-ended sequence (`rt.heap.allocator/LocalDeque.cj`).

  `Holds` is what a deque holds when its two ends are used in any order: the values between `front`
  and `top` of the array, and behind them those of the mapping if it has spilled.  Every operation
  does to them what it does to a list, and so the results of every run are those of a list
  (`run_eq`).
-/
import CangjieRuntime.Heap.LocalDeque

set_option linter.unusedVariables false

namespace CangjieRuntime.Heap

namespace LocalDeque

variable {α : Type}

/-! ## What a deque holds -/

/-- Values of the array. -/
def arrayValues (d : LocalDeque α) (start count : Nat) : List α :=
  (List.range' start count).map fun i : Nat => d.array i

/-- Values of the mapping. -/
def sudValues (d : LocalDeque α) (start count : Nat) : List α :=
  (List.range' start count).map fun i => d.mapping (d.sud.beginAddr + DEQUE_VAL_SIZE * i)

/-- The deque holds the list, after this number of values was pushed. -/
inductive Holds (pushed : Nat) (d : LocalDeque α) (l : List α) : Prop
  /-- All values are in the array. -/
  | inArray (start count : Nat) (hfront : d.front = start) (htop : d.top = start + count - 1)
      (hle : start + count ≤ LOCAL_LENGTH) (hl : l = d.arrayValues start count)
  /-- The array is filled to its end, and the last values are in the mapping. -/
  | spilled (start k n : Nat) (hfront : d.front = start) (hstart : start ≤ LOCAL_LENGTH)
      (htop : d.top = LOCAL_LENGTH) (hsudFront : d.sud.frontAddr = d.sud.beginAddr + DEQUE_VAL_SIZE * k)
      (hsudTop : d.sud.topAddr + DEQUE_VAL_SIZE = d.sud.beginAddr + DEQUE_VAL_SIZE * (k + n))
      (hroom : k + n ≤ pushed) (hsome : start < LOCAL_LENGTH → 0 < n)
      (hl : l = d.arrayValues start (LOCAL_LENGTH - start) ++ d.sudValues k n)

section Values

variable (d : LocalDeque α) (start count : Nat)

/-- The values in the local array, from the first one on. -/
theorem arrayValues_cons :
    d.arrayValues start (count + 1) = d.array start :: d.arrayValues (start + 1) count := by
  rw [arrayValues, List.range'_succ, List.map_cons]
  rfl

/-- The same up to the last one. -/
theorem arrayValues_concat :
    d.arrayValues start (count + 1) =
      d.arrayValues start count ++ [d.array (start + count : Nat)] := by
  rw [arrayValues, List.range'_1_concat, List.map_append]
  rfl

/-- The values in the mapping, from the first one on. -/
theorem sudValues_cons : d.sudValues start (count + 1) =
    d.mapping (d.sud.beginAddr + DEQUE_VAL_SIZE * start) :: d.sudValues (start + 1) count := by
  rw [sudValues, List.range'_succ, List.map_cons]
  rfl

/-- The same up to the last one. -/
theorem sudValues_concat : d.sudValues start (count + 1) =
    d.sudValues start count ++ [d.mapping (d.sud.beginAddr + DEQUE_VAL_SIZE * (start + count))] := by
  rw [sudValues, List.range'_1_concat, List.map_append]
  rfl

/-- Values of the same array. -/
theorem arrayValues_congr {d d' : LocalDeque α} {start count : Nat}
    (h : ∀ i, start ≤ i → i < start + count → d'.array (i : Nat) = d.array (i : Nat)) :
    d'.arrayValues start count = d.arrayValues start count := by
  refine List.map_congr_left fun i hi => ?_
  rw [List.mem_range'_1] at hi
  exact h i hi.1 hi.2

/-- The values of two deques are the same if the words they lie in are. -/
theorem sudValues_congr {d d' : LocalDeque α} {start count : Nat}
    (h : ∀ i, start ≤ i → i < start + count →
      d'.mapping (d'.sud.beginAddr + DEQUE_VAL_SIZE * i) =
        d.mapping (d.sud.beginAddr + DEQUE_VAL_SIZE * i)) :
    d'.sudValues start count = d.sudValues start count := by
  refine List.map_congr_left fun i hi => ?_
  rw [List.mem_range'_1] at hi
  exact h i hi.1 hi.2

end Values

variable {capacity pushed : Nat} {d : LocalDeque α} {l : List α}

/-- A new deque holds nothing. -/
theorem holds_init (sud : SingleUseDeque) (mapping : Nat → α) (null : α) :
    Holds 0 (init sud mapping null) [] := .inArray 0 0 rfl rfl (Nat.zero_le _) rfl

/-! ## Reading -/

/-- As many values as were asked for. -/
theorem length_arrayValues (d : LocalDeque α) (start count : Nat) :
    (d.arrayValues start count).length = count := by
  rw [arrayValues, List.length_map, List.length_range']

/-- The same in the mapping. -/
theorem length_sudValues (d : LocalDeque α) (start count : Nat) :
    (d.sudValues start count).length = count := by
  rw [sudValues, List.length_map, List.length_range']

/-- **`Empty`.** -/
theorem Holds.isEmpty_eq (h : Holds pushed d l) : d.isEmpty = l.isEmpty := by
  have hiff : d.isEmpty = true ↔
      d.top < d.front ∨ (d.front = LOCAL_LENGTH ∧ d.sud.topAddr < d.sud.frontAddr) := by
    rw [LocalDeque.isEmpty, Bool.or_eq_true, Bool.and_eq_true, decide_eq_true_eq,
      decide_eq_true_eq, SingleUseDeque.isEmpty, decide_eq_true_eq]
  rw [Bool.eq_iff_iff, hiff, List.isEmpty_iff, ← List.length_eq_zero_iff]
  cases h with
  | inArray start count hfront htop hle hl =>
    rw [hl, length_arrayValues]
    omega
  | spilled start k n hfront hstart htop hsudFront hsudTop hroom hsome hl =>
    rw [hl, List.length_append, length_arrayValues, length_sudValues]
    simp only [DEQUE_VAL_SIZE] at hsudFront hsudTop
    omega

/-- The slots of the mapping up to the last push are in bounds. -/
theorem within_slot (hmapped : d.sud.Mapped capacity) {i : Nat} (hi : i < capacity) :
    d.sud.Within (d.sud.beginAddr + DEQUE_VAL_SIZE * i) := by
  have hroom := hmapped.room
  simp only [SingleUseDeque.Within, DEQUE_VAL_SIZE] at hroom ⊢
  omega

/-- **`Front`** of a deque that is not empty. -/
theorem Holds.frontValue {a : α} (h : Holds pushed d (a :: l)) (hmapped : d.sud.Mapped capacity)
    (hpushed : pushed ≤ capacity) : d.frontValue = .ok a := by
  rw [LocalDeque.frontValue]
  cases h with
  | inArray start count hfront htop hle hl =>
    cases count with
    | zero => cases hl
    | succ count =>
      rw [arrayValues_cons] at hl
      cases hl
      rw [if_pos (by omega), arrayRead, if_pos (by omega), hfront]
  | spilled start k n hfront hstart htop hsudFront hsudTop hroom hsome hl =>
    rcases Nat.lt_or_ge start LOCAL_LENGTH with hlt | hge
    · obtain ⟨count, hcount⟩ : ∃ count, LOCAL_LENGTH - start = count + 1 :=
        ⟨LOCAL_LENGTH - start - 1, by omega⟩
      rw [hcount, arrayValues_cons] at hl
      cases hl
      rw [if_pos (by omega), arrayRead, if_pos (by omega), hfront]
    · rw [Nat.sub_eq_zero_of_le hge] at hl
      cases n with
      | zero => cases hl
      | succ n =>
        rw [sudValues_cons] at hl
        cases hl
        rw [if_neg (by omega), sudRead, hsudFront, if_pos (within_slot hmapped (by omega))]

/-- **`Top`** of a deque that is not empty. -/
theorem Holds.topValue {a : α} (h : Holds pushed d (l ++ [a])) (hmapped : d.sud.Mapped capacity)
    (hpushed : pushed ≤ capacity) : d.topValue = .ok a := by
  rw [LocalDeque.topValue]
  cases h with
  | inArray start count hfront htop hle hl =>
    cases count with
    | zero => exact absurd hl (by simp [arrayValues])
    | succ count =>
      rw [arrayValues_concat] at hl
      obtain ⟨-, hlast⟩ := List.append_inj' hl rfl
      cases hlast
      have hindex : d.top = (start + count : Nat) := by omega
      rw [if_pos (by omega), arrayRead, if_pos (by omega), hindex]
  | spilled start k n hfront hstart htop hsudFront hsudTop hroom hsome hl =>
    cases n with
    | zero =>
      have hfull : LOCAL_LENGTH - start = 0 := by omega
      rw [hfull] at hl
      exact absurd hl (by simp [arrayValues, sudValues])
    | succ n =>
      rw [sudValues_concat, ← List.append_assoc] at hl
      obtain ⟨-, hlast⟩ := List.append_inj' hl rfl
      cases hlast
      have haddr : d.sud.topAddr = d.sud.beginAddr + DEQUE_VAL_SIZE * (k + n) := by
        simp only [DEQUE_VAL_SIZE] at hsudTop ⊢
        omega
      rw [if_neg (by omega), sudRead, haddr, if_pos (within_slot hmapped (by omega))]

/-! ## Changes -/

/-- The deque with a value in a slot of the mapping, as the last one. -/
def sudPushed (d : LocalDeque α) (i : Nat) (v : α) : LocalDeque α :=
  { d with
    sud := { d.sud with topAddr := d.sud.beginAddr + DEQUE_VAL_SIZE * i }
    mapping := Function.update d.mapping (d.sud.beginAddr + DEQUE_VAL_SIZE * i) v }

/-- A push into a mapping with room writes the next word. -/
theorem sudPush_eq (hmapped : d.sud.Mapped capacity) {i : Nat} (hi : i < capacity)
    (htop : d.sud.topAddr + DEQUE_VAL_SIZE = d.sud.beginAddr + DEQUE_VAL_SIZE * i) (v : α) :
    d.sudPush v = .ok (d.sudPushed i v) := by
  have hwithin := within_slot hmapped hi
  rw [sudPush]
  dsimp only
  rw [htop, if_pos hwithin]
  rfl

/-- It adds the value behind the others. -/
theorem sudValues_pushed (d : LocalDeque α) (k n : Nat) (v : α) :
    (d.sudPushed (k + n) v).sudValues k (n + 1) = d.sudValues k n ++ [v] := by
  have hlast : (d.sudPushed (k + n) v).mapping (d.sud.beginAddr + DEQUE_VAL_SIZE * (k + n)) = v :=
    Function.update_self _ _ _
  have hne : ∀ i, i < k + n → d.sud.beginAddr + DEQUE_VAL_SIZE * i ≠
      d.sud.beginAddr + DEQUE_VAL_SIZE * (k + n) := by
    intro i hi
    simp only [DEQUE_VAL_SIZE]
    omega
  have hrest : (d.sudPushed (k + n) v).sudValues k n = d.sudValues k n :=
    sudValues_congr fun i hi hi' => Function.update_of_ne (hne i hi') _ _
  rw [sudValues_concat, hrest]
  exact congrArg (fun w => d.sudValues k n ++ [w]) hlast

/-- **`Push`** puts the value at the end. -/
theorem Holds.push (h : Holds pushed d l) (hmapped : d.sud.Mapped capacity) (v : α)
    (hpushed : pushed < capacity) :
    ∃ d', d.push v = .ok d' ∧ Holds (pushed + 1) d' (l ++ [v]) ∧ d'.sud.Mapped capacity := by
  have hlocal : LOCAL_LENGTH = 512 := rfl
  cases h with
  | inArray start count hfront htop hle hl =>
    rcases Nat.lt_or_ge (start + count) LOCAL_LENGTH with hlt | hge
    · -- there is room in the array
      let array := Function.update d.array ((start + count : Nat) : Int) v
      have hpush : d.push v = .ok { d with top := (start + count : Nat), array := array } := by
        have hnext : d.top + 1 = (start + count : Nat) := by omega
        rw [LocalDeque.push, if_pos (by omega)]
        dsimp only
        rw [hnext, if_pos (by omega)]
      have hlast : array (start + count : Nat) = v := Function.update_self _ _ _
      have hrest : ({ d with top := (start + count : Nat), array := array } :
          LocalDeque α).arrayValues start count = d.arrayValues start count :=
        arrayValues_congr fun i hi hi' => Function.update_of_ne (by omega) _ _
      refine ⟨_, hpush, .inArray start (count + 1) hfront ?_ hlt ?_, hmapped⟩
      · dsimp only
        omega
      · rw [arrayValues_concat, hrest, hl]
        exact congrArg (fun w => _ ++ [w]) hlast.symm
    · -- the array is full: the mapping is started anew
      have hfull : LOCAL_LENGTH - start = count := by omega
      have htop' : d.top = LOCAL_LENGTH - 1 := by omega
      have hbegin := hmapped.pos
      let d₀ : LocalDeque α := { d with top := d.top + 1, sud := d.sud.clear }
      have hclear : d₀.sud.topAddr + DEQUE_VAL_SIZE = d₀.sud.beginAddr + DEQUE_VAL_SIZE * 0 := by
        show d.sud.beginAddr - DEQUE_VAL_SIZE + DEQUE_VAL_SIZE = d.sud.beginAddr + DEQUE_VAL_SIZE * 0
        omega
      have hmapped₀ : d₀.sud.Mapped capacity := ⟨hmapped.pos, hmapped.room⟩
      refine ⟨d₀.sudPushed 0 v, ?_, .spilled start 0 1 hfront (by omega) ?_ rfl ?_ (by omega)
        (fun _ => Nat.one_pos) ?_, ⟨hmapped.pos, hmapped.room⟩⟩
      · rw [LocalDeque.push, if_neg (by omega), if_pos htop']
        exact sudPush_eq hmapped₀ (show 0 < capacity by omega) hclear v
      · show d.top + 1 = _
        omega
      · show d.sud.beginAddr + DEQUE_VAL_SIZE * 0 + DEQUE_VAL_SIZE =
          d.sud.beginAddr + DEQUE_VAL_SIZE * (0 + 1)
        omega
      · rw [hfull, hl]
        exact congrArg (d.arrayValues start count ++ ·) (sudValues_pushed d₀ 0 0 v).symm
  | spilled start k n hfront hstart htop hsudFront hsudTop hroom hsome hl =>
    refine ⟨d.sudPushed (k + n) v, ?_, .spilled start k (n + 1) hfront hstart htop hsudFront ?_
      (by omega) (fun _ => Nat.succ_pos n) ?_, ⟨hmapped.pos, hmapped.room⟩⟩
    · rw [LocalDeque.push, if_neg (by omega), if_neg (by omega)]
      exact sudPush_eq hmapped (show k + n < capacity by omega) hsudTop v
    · show d.sud.beginAddr + DEQUE_VAL_SIZE * (k + n) + DEQUE_VAL_SIZE =
        d.sud.beginAddr + DEQUE_VAL_SIZE * (k + (n + 1))
      simp only [DEQUE_VAL_SIZE]
      omega
    · rw [sudValues_pushed, hl, List.append_assoc]
      rfl

/-- **`PopFront`** takes the first value away. -/
theorem Holds.popFront {a : α} (h : Holds pushed d (a :: l)) : Holds pushed d.popFront l := by
  rw [LocalDeque.popFront]
  cases h with
  | inArray start count hfront htop hle hl =>
    cases count with
    | zero => cases hl
    | succ count =>
      rw [arrayValues_cons] at hl
      rw [if_pos (by omega)]
      refine .inArray (start + 1) count ?_ ?_ (by omega) (List.cons.inj hl).2
      · dsimp only
        omega
      · dsimp only
        omega
  | spilled start k n hfront hstart htop hsudFront hsudTop hroom hsome hl =>
    rcases Nat.lt_or_ge start LOCAL_LENGTH with hlt | hge
    · obtain ⟨count, hcount⟩ : ∃ count, LOCAL_LENGTH - start = count + 1 :=
        ⟨LOCAL_LENGTH - start - 1, by omega⟩
      have hcount' : LOCAL_LENGTH - (start + 1) = count := by omega
      rw [hcount, arrayValues_cons] at hl
      rw [if_pos (by omega)]
      refine .spilled (start + 1) k n ?_ hlt htop hsudFront hsudTop hroom (fun _ => hsome hlt) ?_
      · dsimp only
        omega
      · rw [hcount']
        exact (List.cons.inj hl).2
    · rw [Nat.sub_eq_zero_of_le hge] at hl
      cases n with
      | zero => cases hl
      | succ n =>
        rw [sudValues_cons] at hl
        rw [if_neg (by omega)]
        refine .spilled start (k + 1) n hfront hstart htop ?_ ?_ (by omega) (fun hlt => by omega) ?_
        · simp only [DEQUE_VAL_SIZE] at hsudFront ⊢
          omega
        · simp only [DEQUE_VAL_SIZE] at hsudTop ⊢
          omega
        · rw [Nat.sub_eq_zero_of_le hge]
          exact (List.cons.inj hl).2

/-- **`Pop`** takes the last value away. -/
theorem Holds.pop {a : α} (h : Holds pushed d (l ++ [a])) (hmapped : d.sud.Mapped capacity) :
    Holds pushed d.pop l := by
  have hlocal : LOCAL_LENGTH = 512 := rfl
  rw [LocalDeque.pop]
  cases h with
  | inArray start count hfront htop hle hl =>
    -- all values are in the array
    cases count with
    | zero => exact absurd hl (by simp [arrayValues])
    | succ count =>
      rw [arrayValues_concat] at hl
      rw [if_pos (by omega)]
      refine .inArray start count hfront ?_ (by omega) (List.append_inj' hl rfl).1
      dsimp only
      omega
  | spilled start k n hfront hstart htop hsudFront hsudTop hroom hsome hl =>
    -- the last values are in the mapping
    cases n with
    | zero =>
      have hfull : LOCAL_LENGTH - start = 0 := by omega
      rw [hfull] at hl
      exact absurd hl (by simp [arrayValues, sudValues])
    | succ n =>
      rw [sudValues_concat, ← List.append_assoc] at hl
      have hvalues := (List.append_inj' hl rfl).1
      have hbegin := hmapped.pos
      have hempty : ({ d.sud with topAddr := d.sud.topAddr - DEQUE_VAL_SIZE } :
          SingleUseDeque).isEmpty = decide (n = 0) := by
        rw [SingleUseDeque.isEmpty, decide_eq_decide]
        simp only [DEQUE_VAL_SIZE] at hsudFront hsudTop hbegin ⊢
        omega
      rw [if_neg (by omega)]
      dsimp only
      rw [hempty]
      -- the mapping gets empty, or it keeps values
      by_cases hzero : n = 0
      · subst hzero
        rw [if_pos (by decide)]
        rcases Nat.lt_or_ge start LOCAL_LENGTH with hlt | hge
        · -- the values are all in the array again
          rw [if_neg (by omega), if_pos (by omega)]
          refine .inArray start (LOCAL_LENGTH - start) hfront ?_ (by omega) ?_
          · dsimp only
            omega
          · rw [hvalues]
            exact List.append_nil _
        · -- nothing is left: the array is used anew
          rw [if_pos (by omega)]
          refine .inArray 0 0 rfl rfl (Nat.zero_le _) ?_
          rw [hvalues, Nat.sub_eq_zero_of_le hge]
          rfl
      · rw [if_neg (by simpa using hzero)]
        refine .spilled start k n hfront hstart htop hsudFront ?_ (by omega)
          (fun _ => Nat.pos_of_ne_zero hzero) hvalues
        simp only [DEQUE_VAL_SIZE] at hsudTop hbegin ⊢
        omega

/-! ## Runs -/

/-- The operations.  A push at the back, pops and reads at both ends, and the test for emptiness. -/
inductive Op (α : Type)
  | push (v : α)
  | pop
  | popFront
  | top
  | front
  | empty

/-- What an operation returns. -/
inductive Result (α : Type)
  | done
  | value (v : α)
  | flag (b : Bool)
  deriving DecidableEq, Repr

/-- An operation of the deque. -/
def step (d : LocalDeque α) : Op α → Except DequeFault (LocalDeque α × Result α)
  | .push v => (d.push v).map fun d => (d, .done)
  | .pop => .ok (d.pop, .done)
  | .popFront => .ok (d.popFront, .done)
  | .top => d.topValue.map fun v => (d, .value v)
  | .front => d.frontValue.map fun v => (d, .value v)
  | .empty => .ok (d, .flag d.isEmpty)

/-- The results of a sequence of operations. -/
def run (d : LocalDeque α) : List (Op α) → Except DequeFault (List (Result α))
  | [] => .ok []
  | op :: ops => do
    let (d, result) ← d.step op
    let results ← run d ops
    .ok (result :: results)

/-- The operation of a sequence; the elements are taken from a sequence that is not empty only. -/
def seqStep (l : List α) : Op α → Option (List α × Result α)
  | .push v => some (l ++ [v], .done)
  | .pop => if l.isEmpty then none else some (l.dropLast, .done)
  | .popFront => if l.isEmpty then none else some (l.tail, .done)
  | .top => l.getLast?.map fun v => (l, .value v)
  | .front => l.head?.map fun v => (l, .value v)
  | .empty => some (l, .flag l.isEmpty)

/-- The results of a sequence of operations on a sequence. -/
def seqRun (l : List α) : List (Op α) → Option (List (Result α))
  | [] => some []
  | op :: ops => do
    let (l, result) ← seqStep l op
    let results ← seqRun l ops
    some (result :: results)

/-- The operations that need room. -/
def Op.isPush : Op α → Bool
  | .push _ => true
  | _ => false

/-- A pop leaves the mapping where it is. -/
theorem mapped_pop (h : d.sud.Mapped capacity) : d.pop.sud.Mapped capacity := by
  have hfields : d.pop.sud.beginAddr = d.sud.beginAddr ∧ d.pop.sud.endAddr = d.sud.endAddr := by
    rw [LocalDeque.pop]
    split
    · exact ⟨rfl, rfl⟩
    · dsimp only
      split
      · split
        · exact ⟨rfl, rfl⟩
        · split
          · exact ⟨rfl, rfl⟩
          · exact ⟨rfl, rfl⟩
      · exact ⟨rfl, rfl⟩
  exact ⟨by rw [hfields.1]; exact h.pos, by rw [hfields.1, hfields.2]; exact h.room⟩

/-- So does a pop at the front. -/
theorem mapped_popFront (h : d.sud.Mapped capacity) : d.popFront.sud.Mapped capacity := by
  rw [LocalDeque.popFront]
  split
  · exact h
  · exact ⟨h.pos, h.room⟩

/-- **One operation** does to the deque what it does to the sequence.  The count of pushes goes up
    with each of them, which is all that has to stay below the capacity. -/
theorem Holds.step (h : Holds pushed d l) (hmapped : d.sud.Mapped capacity)
    (hpushed : pushed ≤ capacity) {op : Op α} (hroom : op.isPush = true → pushed < capacity)
    {l' : List α} {result : Result α} (hstep : seqStep l op = some (l', result)) :
    ∃ d', d.step op = .ok (d', result) ∧
      Holds (if op.isPush then pushed + 1 else pushed) d' l' ∧ d'.sud.Mapped capacity := by
  cases op with
  | push v =>
    cases hstep
    obtain ⟨d', hpush, hholds, hmapped'⟩ := h.push hmapped v (hroom rfl)
    exact ⟨d', by rw [LocalDeque.step, hpush]; rfl, hholds, hmapped'⟩
  | pop =>
    rcases List.eq_nil_or_concat l with rfl | ⟨front, a, rfl⟩
    · cases hstep
    · rw [seqStep, List.concat_eq_append, if_neg (by simp), List.dropLast_concat] at hstep
      cases hstep
      rw [List.concat_eq_append] at h
      exact ⟨d.pop, rfl, h.pop hmapped, mapped_pop hmapped⟩
  | popFront =>
    cases l with
    | nil => cases hstep
    | cons a l =>
      cases hstep
      exact ⟨d.popFront, rfl, h.popFront, mapped_popFront hmapped⟩
  | top =>
    rcases List.eq_nil_or_concat l with rfl | ⟨front, a, rfl⟩
    · cases hstep
    · rw [List.concat_eq_append] at h hstep
      rw [seqStep, List.getLast?_concat] at hstep
      cases hstep
      exact ⟨d, by rw [LocalDeque.step, h.topValue hmapped hpushed]; rfl, h, hmapped⟩
  | front =>
    cases l with
    | nil => cases hstep
    | cons a l =>
      cases hstep
      exact ⟨d, by rw [LocalDeque.step, h.frontValue hmapped hpushed]; rfl, h, hmapped⟩
  | empty =>
    cases hstep
    exact ⟨d, by rw [LocalDeque.step, h.isEmpty_eq], h, hmapped⟩

/-- A run from a deque that holds a sequence. -/
theorem Holds.run : ∀ (ops : List (Op α)) (pushed : Nat) (d : LocalDeque α) (l : List α)
    (results : List (Result α)), Holds pushed d l → d.sud.Mapped capacity →
    pushed + ops.countP Op.isPush ≤ capacity → seqRun l ops = some results →
    d.run ops = .ok results := by
  intro ops
  induction ops with
  | nil =>
    intro pushed d l results h hmapped hroom hseq
    cases hseq
    rfl
  | cons op ops ih =>
    intro pushed d l results h hmapped hroom hseq
    rw [List.countP_cons] at hroom
    rw [seqRun, Option.bind_eq_bind, Option.bind_eq_some_iff] at hseq
    obtain ⟨⟨l', result⟩, hstep, hseq⟩ := hseq
    rw [Option.bind_eq_bind, Option.bind_eq_some_iff] at hseq
    obtain ⟨results', hrest, heq⟩ := hseq
    cases heq
    have hroom' : op.isPush = true → pushed < capacity := by
      intro hpush
      rw [if_pos hpush] at hroom
      omega
    obtain ⟨d', hd', hholds, hmapped'⟩ := h.step hmapped (by omega) hroom' hstep
    have hcount : (if op.isPush then pushed + 1 else pushed) + ops.countP Op.isPush ≤ capacity := by
      split at hroom
      · rename_i hpush
        rw [if_pos hpush]
        omega
      · rename_i hpush
        rw [if_neg hpush]
        omega
    have htail := ih _ d' l' results' hholds hmapped' hcount hrest
    rw [LocalDeque.run, hd']
    dsimp only [bind, Except.bind]
    rw [htail]

/-- **A `LocalDeque` is a double-ended sequence**: the results of all runs that the sequence can do
    are the same, if the mapping has room for all that is pushed.  The 512 slots inside the deque
    and those of the mapping are one sequence, also when an operation crosses from the ones to the
    others. -/
theorem run_eq (sud : SingleUseDeque) (mapping : Nat → α) (null : α) (ops : List (Op α))
    (results : List (Result α)) (hmapped : sud.Mapped capacity)
    (hroom : ops.countP Op.isPush ≤ capacity) (hseq : seqRun [] ops = some results) :
    (init sud mapping null).run ops = .ok results :=
  Holds.run ops 0 _ [] results (holds_init sud mapping null) hmapped (by omega) hseq

/-- 514 values, of which 512 are taken from the front and the two in the mapping from the end; that
    empties the deque and starts it anew. -/
def acrossTheSpill : List (Op Nat) :=
  (List.range 514).map Op.push ++ [.top, .front] ++ List.replicate 512 .popFront ++
    [.front, .top, .pop, .pop, .empty, .push 7, .front, .pop, .empty]

/-- A queue and a stack at once, over the spill and the reset. -/
theorem run_eq_sample : (init ⟨8, 0, 0, 4128⟩ (fun _ => 0) 0).run acrossTheSpill =
    .ok (List.replicate 514 .done ++ [.value 513, .value 0] ++ List.replicate 512 .done ++
      [.value 512, .value 513, .done, .done, .flag true, .done, .value 7, .done, .flag true]) :=
  @run_eq Nat 515 ⟨8, 0, 0, 4128⟩ (fun _ => 0) 0 _ _ ⟨by decide, by decide⟩ (by decide +kernel)
    (by decide +kernel)

end LocalDeque

end CangjieRuntime.Heap
