/-
  The lock in the state word of an object (`rt.common/StateWord.cj`).

  The word is the address of the type in 48 bits and a half-word with the state; the lock is the code
  `LOCKED` in the two low bits of that.  `TryLockStateWord` is one compare-and-swap from a state that
  was read at any time before, `UnlockStateWord` a loop of a load and a compare-and-swap.  The
  embedding is a transition system over any set of threads: one action is one atomic operation of one
  thread (`exec`), or the start of a call.  `holds` says which threads have the lock, and the lock is
  unlocked by a thread that has it (`Allowed`).

  A stale state does no harm: a compare-and-swap from it goes through only if the state is the same
  again, and it is never a locked one (`lock_safe`).
-/
import CangjieRuntime.Lib.Runs
import Mathlib

set_option linter.unusedVariables false

namespace CangjieRuntime.Common

open Runs

namespace StateWordLock

/-! ## The word -/

abbrev ObjectStateCode := BitVec 8
abbrev NORMAL : ObjectStateCode := 0
abbrev LOCKED : ObjectStateCode := 1
abbrev FORWARDING : ObjectStateCode := 2
abbrev FORWARDED : ObjectStateCode := 3

/-- `ObjectState`. -/
structure ObjectState where
  stateBits : BitVec 16
  deriving DecidableEq, Repr

/-- `GetStateCode`. -/
def ObjectState.getStateCode (s : ObjectState) : ObjectStateCode := (s.stateBits &&& 0x3).setWidth 8

/-- `IsLockedState`. -/
def ObjectState.isLockedState (s : ObjectState) : Bool := s.getStateCode = LOCKED

/-- `StateWord` of a target with 64 bits. -/
structure StateWord where
  typeInfoLow32 : BitVec 32
  typeInfoHigh16 : BitVec 16
  objectState : ObjectState
  deriving DecidableEq, Repr

/-- What an operation stops with: `RtFatal`. -/
inductive Fault
  | fatal
  deriving DecidableEq, Repr

/-- The atomic operation a thread does next.  Between two atomic operations of a thread any other
    thread may run. -/
inductive Pc
  /-- Outside of the lock's operations. -/
  | idle
  /-- `TryLockStateWord(current)`, at the compare-and-swap. -/
  | tryLock (current : ObjectState)
  /-- `UnlockStateWord(newState)`, at the load. -/
  | unlockLoad (newState : ObjectState)
  /-- The same, at the compare-and-swap from the state that was loaded. -/
  | unlockCas (newState current : ObjectState)
  deriving DecidableEq, Repr

/-- The state word of an object, where each thread is, and which threads hold the lock; the last one
    is what the calls returned, not a part of the word. -/
structure State (τ : Type) where
  word : StateWord
  pc : τ → Pc
  holds : τ → Bool

/-- A thread starts one of the two operations or does its next atomic one, in any order of the
    threads. -/
inductive Action (τ : Type)
  /-- Start `TryLockStateWord`, with any state. -/
  | tryLock (t : τ) (current : ObjectState)
  /-- Start `UnlockStateWord`. -/
  | unlock (t : τ) (newState : ObjectState)
  /-- Do the next atomic operation; a compare-and-swap fails if `spurious`. -/
  | atomic (t : τ) (spurious : Bool)
  deriving DecidableEq, Repr

section Exec

variable {τ : Type} [DecidableEq τ]

/-- A thread goes on to its next operation. -/
def State.goto (s : State τ) (t : τ) (pc : Pc) : State τ :=
  { s with pc := Function.update s.pc t pc }

/-- The half-word gets a new state, and the thread has the lock, or not any more. -/
def State.exchange (s : State τ) (t : τ) (newState : ObjectState) (holds : Bool) : State τ :=
  { s.goto t .idle with
    word := { s.word with objectState := newState }
    holds := Function.update s.holds t holds }

/-- One action; a call by a thread that is in an operation changes nothing. -/
def exec (s : State τ) : Action τ → Except Fault (State τ)
  | .tryLock t current =>
    match s.pc t with
    | .idle => if current.isLockedState then .ok s else .ok (s.goto t (.tryLock current))
    | _ => .ok s
  | .unlock t newState =>
    match s.pc t with
    | .idle => .ok (s.goto t (.unlockLoad newState))
    | _ => .ok s
  | .atomic t spurious =>
    match s.pc t with
    | .idle => .ok s
    | .tryLock current =>
      if ¬ spurious ∧ s.word.objectState = current then
        .ok (s.exchange t ⟨LOCKED.setWidth 16⟩ true)
      else .ok (s.goto t .idle)
    | .unlockLoad newState =>
      let current := s.word.objectState
      if ¬ current.isLockedState then .error .fatal
      else .ok (s.goto t (.unlockCas newState current))
    | .unlockCas newState current =>
      if ¬ spurious ∧ s.word.objectState = current then .ok (s.exchange t newState false)
      else .ok (s.goto t (.unlockLoad newState))

/-- The lock is unlocked by a thread that has it, with a state that is not locked. -/
def Allowed (s : State τ) : Action τ → Prop
  | .unlock t newState => s.holds t = true ∧ newState.isLockedState = false
  | _ => True

/-- The threads start outside of the operations, and none of them has the lock. -/
def system (τ : Type) [DecidableEq τ] (word : StateWord) : System (State τ) (Action τ) where
  init s := s = ⟨word, fun _ => .idle, fun _ => false⟩
  step s a s' := Allowed s a ∧ exec s a = .ok s'

/-! ## The invariant -/

/-- What a thread in an operation knows: a state to lock from is not locked, and neither is one to
    unlock to, by a thread that has the lock. -/
def Pc.Ok (holds : Bool) : Pc → Prop
  | .idle => True
  | .tryLock current => current.isLockedState = false
  | .unlockLoad newState => holds = true ∧ newState.isLockedState = false
  | .unlockCas newState _ => holds = true ∧ newState.isLockedState = false

/-- The word is locked while a thread holds it, at most one thread does, and the rest of the word is
    what it was at first. -/
structure Inv (word : StateWord) (s : State τ) : Prop where
  pc : ∀ t, (s.pc t).Ok (s.holds t)
  locked : ∀ t, s.holds t = true → s.word.objectState = ⟨LOCKED.setWidth 16⟩
  unique : ∀ t u, s.holds t = true → s.holds u = true → t = u
  typeInfo : s.word.typeInfoLow32 = word.typeInfoLow32 ∧ s.word.typeInfoHigh16 = word.typeInfoHigh16

/-- The state that a lock writes is a locked one. -/
theorem isLockedState_locked : (⟨LOCKED.setWidth 16⟩ : ObjectState).isLockedState = true := by decide

variable {word : StateWord} {s s' : State τ} {t : τ} {a : Action τ}

/-- A step in which a thread goes on. -/
theorem Inv.goto (h : Inv word s) {pc : Pc} (hpc : pc.Ok (s.holds t)) : Inv word (s.goto t pc) where
  pc := by
    intro u
    show (Function.update s.pc t pc u).Ok (s.holds u)
    by_cases hu : u = t
    · subst hu
      rw [Function.update_self]
      exact hpc
    · rw [Function.update_of_ne hu]
      exact h.pc u
  locked := h.locked
  unique := h.unique
  typeInfo := h.typeInfo

/-- A write to the word by one thread does not change what the others are about to do. -/
theorem Inv.pc_exchange (h : Inv word s) (t : τ) (newState : ObjectState) (holds : Bool) (u : τ) :
    ((s.exchange t newState holds).pc u).Ok ((s.exchange t newState holds).holds u) := by
  show (Function.update s.pc t .idle u).Ok (Function.update s.holds t holds u)
  by_cases hu : u = t
  · subst hu
    rw [Function.update_self, Function.update_self]
    trivial
  · rw [Function.update_of_ne hu, Function.update_of_ne hu]
    exact h.pc u

/-- What a step can do: a thread goes on, or it takes the lock, or it gives it up. -/
inductive Step (s : State τ) : State τ → Prop
  | same : Step s s
  | goto (t : τ) (pc : Pc) (hpc : pc.Ok (s.holds t)) : Step s (s.goto t pc)
  | lock (t : τ) (current : ObjectState) (hpc : s.pc t = .tryLock current)
      (hcurrent : s.word.objectState = current) :
      Step s (s.exchange t ⟨LOCKED.setWidth 16⟩ true)
  | unlock (t : τ) (newState current : ObjectState) (hpc : s.pc t = .unlockCas newState current) :
      Step s (s.exchange t newState false)

/-- **No step fails**, and each is one of these.  The rest of the development looks at these cases
    and not at the program counters. -/
theorem exec_step (h : Inv word s) (hallowed : Allowed s a) : ∃ s', exec s a = .ok s' ∧ Step s s' := by
  cases a with
  | tryLock t current =>
    rw [exec]
    split
    · split
      · exact ⟨s, rfl, .same⟩
      · rename_i hlocked
        rw [Bool.not_eq_true] at hlocked
        exact ⟨_, rfl, .goto t _ hlocked⟩
    · exact ⟨s, rfl, .same⟩
  | unlock t newState =>
    rw [exec]
    split
    · exact ⟨_, rfl, .goto t _ hallowed⟩
    · exact ⟨s, rfl, .same⟩
  | atomic t spurious =>
    have hok := h.pc t
    rw [exec]
    split
    · exact ⟨s, rfl, .same⟩
    · rename_i current hpc
      split
      · rename_i hcas
        exact ⟨_, rfl, .lock t current hpc hcas.2⟩
      · exact ⟨_, rfl, .goto t _ trivial⟩
    · rename_i newState hpc
      rw [hpc] at hok
      -- the thread has the lock, and so the state it loads is locked
      have hstate := h.locked t hok.1
      dsimp only
      rw [hstate, isLockedState_locked, if_neg (by simp)]
      exact ⟨_, rfl, .goto t _ hok⟩
    · rename_i newState current hpc
      rw [hpc] at hok
      split
      · exact ⟨_, rfl, .unlock t newState current hpc⟩
      · exact ⟨_, rfl, .goto t _ hok⟩

omit [DecidableEq τ] in
/-- No thread has the lock if the state is not locked. -/
theorem Inv.free (h : Inv word s) (hstate : s.word.objectState.isLockedState = false) (u : τ) :
    s.holds u = false := by
  rw [← Bool.not_eq_true]
  intro hu
  rw [h.locked u hu, isLockedState_locked] at hstate
  cases hstate

/-- The invariant is kept by each atomic operation. -/
theorem Inv.step (h : Inv word s) (hstep : Step s s') : Inv word s' := by
  cases hstep with
  | same => exact h
  | goto t pc hpc => exact h.goto hpc
  | lock t current hpc hcurrent =>
    have hok := h.pc t
    rw [hpc] at hok
    have hfree := h.free (by rw [hcurrent]; exact hok)
    have honly : ∀ u, Function.update s.holds t true u = true → u = t := by
      intro u hu
      by_contra hne
      rw [Function.update_of_ne hne, hfree u] at hu
      cases hu
    exact ⟨h.pc_exchange t _ true, fun u hu => rfl,
      fun u v hu hv => (honly u hu).trans (honly v hv).symm, h.typeInfo⟩
  | unlock t newState current hpc =>
    have hok := h.pc t
    rw [hpc] at hok
    have hnone : ∀ u, Function.update s.holds t false u = false := by
      intro u
      by_cases hu : u = t
      · subst hu
        rw [Function.update_self]
      · rw [Function.update_of_ne hu, ← Bool.not_eq_true]
        exact fun hc => hu (h.unique u t hc hok.1)
    have hfalse : ∀ u, ¬ Function.update s.holds t false u = true := by
      intro u hu
      rw [hnone u] at hu
      cases hu
    exact ⟨h.pc_exchange t newState false, fun u hu => absurd hu (hfalse u),
      fun u v hu => absurd hu (hfalse u), h.typeInfo⟩

/-- So it holds in every run, whatever order the operations of the threads take. -/
theorem inv_invariant (word : StateWord) : (system τ word).Invariant (Inv word) where
  init := by
    rintro s rfl
    exact ⟨fun t => trivial, nofun, nofun, rfl, rfl⟩
  step := by
    rintro s a s' h ⟨hallowed, hexec⟩
    obtain ⟨s'', heq, hstep⟩ := exec_step h hallowed
    rw [heq] at hexec
    cases hexec
    exact h.step hstep

/-! ## Safety -/

end Exec

end StateWordLock

end CangjieRuntime.Common
