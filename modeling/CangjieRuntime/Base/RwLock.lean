/-
  The reader-writer lock (`rt.base/RwLock.cj`): one 32-bit counter for both modes.

  The counter is -1 while a writer has the lock and the number of read holds otherwise.  The
  embedding is a transition system over any set of threads: one action is one atomic load, store,
  fetch-sub or compare-and-swap of one thread (`exec`), or the start of a call.  The program counter
  of a thread holds the locals of the call it is in; `count` is the value it loaded, which may be
  stale by the time it is used.  A compare-and-swap may fail spuriously.

  The lock does not know who its holders are, and a thread may take it for reading again while it
  reads.  So what a thread has is a number of holds in each mode (`Hold`), which no operation looks
  at: `holds` is there to say what the counter means.
-/
import CangjieRuntime.Lib.Runs
import Mathlib

set_option linter.unusedVariables false

namespace CangjieRuntime.Base

open Runs

namespace RwLock

/-- What an operation stops with: `abort()`, `RtFatal`.  Both are in branches of the unlock
    functions, for a count that is not what the caller's hold says. -/
inductive Fault
  | abort
  | fatal
  deriving DecidableEq, Repr

abbrev WRITE_LOCKED : Int := -1

/-- A value as an `Int32`, under wrapping arithmetic. -/
def int32 (x : Int) : Int := x.bmod (2 ^ 32)

/-- How often a thread has the lock in each mode. -/
structure Hold where
  reads : Nat
  writes : Nat
  deriving DecidableEq, Repr

/-- The atomic operation a thread does next.  A function of the lock is cut at each of its atomic
    operations, and between two of them any thread may run. -/
inductive Pc
  /-- Outside of the lock's operations. -/
  | idle
  /-- `LockRead`, or `TryLockRead` if `isTry`, at a load. -/
  | readLoad (isTry : Bool)
  /-- The same, at the compare-and-swap. -/
  | readCas (isTry : Bool) (count : Int)
  /-- `LockWrite`, or `TryLockWrite`, at the compare-and-swap. -/
  | writeCas (isTry : Bool)
  /-- `UnlockRead`, at the fetch-sub. -/
  | unlockRead
  /-- `UnlockWrite`, at the load. -/
  | unlockWriteLoad
  /-- `UnlockWrite`, at the store. -/
  | unlockWriteStore
  deriving DecidableEq, Repr

/-- The operations of the lock.  A `Try` operation is the same loop with a return where the other
    one goes round again. -/
inductive Op
  | lockRead
  | tryLockRead
  | lockWrite
  | tryLockWrite
  | unlockRead
  | unlockWrite
  deriving DecidableEq, Repr

/-- The counter of the lock, where each thread is, and what each thread holds.  The lock itself
    knows the counter only; the holds are what the calls returned so far. -/
structure State (τ : Type) where
  lockCount : Int
  pc : τ → Pc
  holds : τ → Hold

/-- A thread starts an operation or does its next atomic one.  A run is any sequence of these, so
    that the threads interleave in all orders. -/
inductive Action (τ : Type)
  /-- Start an operation. -/
  | call (t : τ) (op : Op)
  /-- Do the next atomic operation; a compare-and-swap fails if `spurious`. -/
  | atomic (t : τ) (spurious : Bool)
  deriving DecidableEq, Repr

/-- The first atomic operation of an operation. -/
def Op.start : Op → Pc
  | .lockRead => .readLoad false
  | .tryLockRead => .readLoad true
  | .lockWrite => .writeCas false
  | .tryLockWrite => .writeCas true
  | .unlockRead => .unlockRead
  | .unlockWrite => .unlockWriteLoad

section Exec

variable {τ : Type} [DecidableEq τ]

/-- A thread goes to its next atomic operation, and nothing else changes. -/
def State.goto (s : State τ) (t : τ) (pc : Pc) : State τ :=
  { s with pc := Function.update s.pc t pc }

/-- The counter is changed, and the call returns with other holds. -/
def State.put (s : State τ) (t : τ) (lockCount : Int) (hold : Hold) : State τ :=
  ⟨lockCount, Function.update s.pc t .idle, Function.update s.holds t hold⟩

/-- One action; a call by a thread that is in an operation changes nothing. -/
def exec (s : State τ) : Action τ → Except Fault (State τ)
  | .call t op =>
    match s.pc t with
    | .idle => .ok (s.goto t op.start)
    | _ => .ok s
  | .atomic t spurious =>
    let hold := s.holds t
    match s.pc t with
    | .idle => .ok s
    | .readLoad isTry =>
      -- a write-locked count is loaded again by `LockRead` and turned down by `TryLockRead`
      if s.lockCount = WRITE_LOCKED then
        .ok (s.goto t (if isTry then .idle else .readLoad isTry))
      else .ok (s.goto t (.readCas isTry s.lockCount))
    | .readCas isTry count =>
      if s.lockCount = count ∧ spurious = false then
        .ok (s.put t (int32 (count + 1)) ⟨hold.reads + 1, hold.writes⟩)
      else .ok (s.goto t (.readLoad isTry))
    | .writeCas isTry =>
      if s.lockCount = 0 ∧ spurious = false then
        .ok (s.put t WRITE_LOCKED ⟨hold.reads, hold.writes + 1⟩)
      else .ok (s.goto t (if isTry then .idle else .writeCas isTry))
    | .unlockRead =>
      if s.lockCount < 0 then .error .abort
      else .ok (s.put t (int32 (s.lockCount - 1)) ⟨hold.reads - 1, hold.writes⟩)
    | .unlockWriteLoad =>
      if s.lockCount ≠ WRITE_LOCKED then .error .fatal
      else .ok (s.goto t .unlockWriteStore)
    | .unlockWriteStore => .ok (s.put t 0 ⟨hold.reads, hold.writes - 1⟩)

/-- The lock and its threads, every order of their atomic operations. -/
def machine : System (State τ) (Action τ) where
  init s := s = ⟨0, fun _ => .idle, fun _ => ⟨0, 0⟩⟩
  step s a s' := exec s a = .ok s'

end Exec

/-- A thread releases only a mode it has. -/
def Action.Releases {τ : Type} (s : State τ) : Action τ → Prop
  | .call t .unlockRead => s.pc t = .idle → 0 < (s.holds t).reads
  | .call t .unlockWrite => s.pc t = .idle → 0 < (s.holds t).writes
  | _ => True

section Bounds

variable {τ : Type} [Fintype τ]

/-- The read holds of all threads. -/
def State.readHolds (s : State τ) : Nat := ∑ t, (s.holds t).reads

/-- The write holds of all threads. -/
def State.writeHolds (s : State τ) : Nat := ∑ t, (s.holds t).writes

/-- A thread on its way through `LockRead` or `TryLockRead` may be about to have one hold more. -/
def Pc.reading : Pc → Nat
  | .readLoad _ => 1
  | .readCas _ _ => 1
  | _ => 0

/-- The calls for reading that are under way. -/
def State.readCalls (s : State τ) : Nat := ∑ t, (s.pc t).reading

/-- A call for reading starts only if the counter has room for it, the read holds and the calls for
    reading that are under way. -/
def Action.Bounded (s : State τ) : Action τ → Prop
  | .call t .lockRead => s.pc t = .idle → s.readHolds + s.readCalls < 2 ^ 31 - 1
  | .call t .tryLockRead => s.pc t = .idle → s.readHolds + s.readCalls < 2 ^ 31 - 1
  | _ => True

/-- The runs in which threads release only what they have, and never have more read holds than the
    counter counts. -/
def lawful (τ : Type) [Fintype τ] [DecidableEq τ] : System (State τ) (Action τ) :=
  machine.guarded fun s a => a.Releases s ∧ a.Bounded s

end Bounds

end RwLock

end CangjieRuntime.Base
