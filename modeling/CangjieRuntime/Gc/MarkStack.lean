/-
  The mark stacks (`rt.gc/MarkWorkStack.cj`): values in a chain of buffers of 64.

  A stack keeps the head and the tail of its chain and the number of buffers; the last buffer is
  filled from the front, and stacks are spliced whole.  The embedding:

    * buffers live at addresses, and a pointer is an `Option`; an access through null or to a buffer
      that has been freed is a fault;
    * the memory keeps what a freed buffer held, so that a buffer that is allocated anew has stale
      values above its count, as with `operator new`; which address it gets is the allocator's
      choice, and a parameter;
    * values are pointers, with 0 for null.

  The traversal of `MarkStackConstructFromBuffer` takes fuel.
-/
import CangjieRuntime.Lib.Runs
import CangjieRuntime.Lib.Words
import CangjieRuntime.Lib.Linked
import Mathlib

set_option linter.unusedVariables false

namespace CangjieRuntime.Gc

open Runs

/-- `MarkStackBuf`: a node of the list with up to 64 values, of which the first `count` are in use.
    -/
structure MarkStackBuf where
  next : Option Nat
  pre : Option Nat
  count : Nat
  stack : Nat → Nat

/-- `MarkStack`: the head and the tail of the list of buffers, and the number of buffers. -/
structure MarkStack where
  h : Option Nat
  t : Option Nat
  s : Nat
  deriving DecidableEq, Repr

namespace MarkStack

/-- What an operation stops with. -/
inductive Fault
  | abort
  | nullDeref
  | dangling
  | outOfFuel
  deriving DecidableEq, Repr

abbrev MAX : Nat := 64

/-! ## Memory -/

/-- The buffers, and which of them are allocated.  To touch a buffer that was freed is a fault; its
    values stay, since `NewBuffer` sets the links and the count and not the values. -/
structure Memory where
  buf : Nat → MarkStackBuf
  live : Nat → Bool

def Memory.read (m : Memory) : Option Nat → Except Fault MarkStackBuf
  | none => .error .nullDeref
  | some a => if m.live a then .ok (m.buf a) else .error .dangling

def Memory.modify (m : Memory) (p : Option Nat) (f : MarkStackBuf → MarkStackBuf) :
    Except Fault Memory :=
  match p with
  | none => .error .nullDeref
  | some a =>
    if m.live a then .ok { m with buf := Function.update m.buf a (f (m.buf a)) }
    else .error .dangling

/-- `NewBuffer`, at the address `a`. -/
def newBuffer (m : Memory) (a : Nat) : Memory :=
  let value := { m.buf a with next := none, pre := none, count := 0 }
  { buf := Function.update m.buf a value, live := Function.update m.live a true }

/-- `DeleteBuffer`; deleting null does nothing. -/
def deleteBuffer (m : Memory) : Option Nat → Except Fault Memory
  | none => .ok m
  | some a =>
    if m.live a then .ok { m with live := Function.update m.live a false }
    else .error .dangling

/-! ## Buffers -/

/-- `MarkStackBufPushBack`: a full buffer aborts. -/
def bufPushBack (m : Memory) (p : Option Nat) (value : Nat) : Except Fault Memory := do
  let b ← m.read p
  if b.count = MAX then .error .abort
  else m.modify p fun b =>
    { b with stack := Function.update b.stack b.count value, count := Words.add 64 b.count 1 }

/-- `MarkStackBufBack`: the last value; an empty buffer aborts. -/
def bufBack (m : Memory) (p : Option Nat) : Except Fault Nat := do
  let b ← m.read p
  if b.count = 0 then .error .abort else .ok (b.stack (Words.sub 64 b.count 1))

/-- `MarkStackBufPopBack`: only the count changes, and the value stays behind it. -/
def bufPopBack (m : Memory) (p : Option Nat) : Except Fault Memory := do
  let b ← m.read p
  if b.count = 0 then .error .abort
  else m.modify p fun b => { b with count := Words.sub 64 b.count 1 }

/-! ## Stacks -/

/-- `MarkStackConstruct`: no buffers. -/
def construct : MarkStack := ⟨none, none, 0⟩

/-- `MarkStackEmpty`: the count and both ends have to agree. -/
def isEmpty (st : MarkStack) : Bool := st.s = 0 && st.h = none && st.t = none

/-- `MarkStackClean`: the buffers are forgotten, not freed. -/
def clean (st : MarkStack) : MarkStack := if st.isEmpty then st else construct

/-- `MarkStackMoveConstruct`: the destination and the source. -/
def moveConstruct (source : MarkStack) : MarkStack × MarkStack := (source, source.clean)

/-- The loop of `MarkStackConstructFromBuffer`. -/
def countBuffers (m : Memory) : Nat → Option Nat → MarkStack → Except Fault MarkStack
  | _, none, st => .ok st
  | 0, some _, _ => .error .outOfFuel
  | fuel + 1, some current, st => do
    let b ← m.read (some current)
    let st := { st with s := Words.add 64 st.s 1 }
    let st := if b.next = none then { st with t := some current } else st
    countBuffers m fuel b.next st

/-- `MarkStackConstructFromBuffer`: the stack of the buffers that `buf` leads to. -/
def constructFromBuffer (m : Memory) (fuel : Nat) (buf : Option Nat) : Except Fault MarkStack :=
  countBuffers m fuel buf { construct with h := buf }

/-- `MarkStackPushBuffer`: the buffer comes behind the tail. -/
def pushBuffer (st : MarkStack) (m : Memory) (buf : Nat) : Except Fault (MarkStack × Memory) :=
  if st.isEmpty then .ok (⟨some buf, some buf, Words.add 64 st.s 1⟩, m)
  else do
    let tail := st.t
    let m ← m.modify (some buf) fun b => { b with pre := tail }
    let m ← m.modify tail fun b => { b with next := some buf }
    .ok ({ st with t := some buf, s := Words.add 64 st.s 1 }, m)

/-- `MarkStackPopBuffer`: the tail is taken off and returned, null for an empty stack. -/
def popBuffer (st : MarkStack) (m : Memory) :
    Except Fault (MarkStack × Memory × Option Nat) :=
  if st.isEmpty then .ok (st, m, none)
  else do
    let result := st.t
    let b ← m.read result
    let pre := b.pre
    let st := { st with t := pre }
    let (st, m) ← match pre with
      | some p => do
        let m ← m.modify (some p) fun b => { b with next := none }
        .ok (st, m)
      | none => .ok ({ st with h := none }, m)
    let m ← m.modify result fun b => { b with pre := none }
    .ok ({ st with s := Words.sub 64 st.s 1 }, m, result)

/-- `MarkStackPushBack`; a new buffer would get the address `fresh`. -/
def pushBack (st : MarkStack) (m : Memory) (value fresh : Nat) :
    Except Fault (MarkStack × Memory) := do
  let full ← match st.t with
    | none => .ok true
    | some t => do
      let b ← m.read (some t)
      .ok (decide (b.count = MAX))
  let (st, m) ← if full then st.pushBuffer (newBuffer m fresh) fresh else .ok (st, m)
  let m ← bufPushBack m st.t value
  .ok (st, m)

/-- `MarkStackBack`: the last value of the tail, 0 without one. -/
def back (st : MarkStack) (m : Memory) : Except Fault Nat :=
  match st.t with
  | none => .ok 0
  | some t => bufBack m (some t)

/-- `MarkStackPopBack`: the last value goes, and with it the tail if that is empty then. -/
def popBack (st : MarkStack) (m : Memory) : Except Fault (MarkStack × Memory) :=
  if st.isEmpty then .error .abort
  else do
    let tail := st.t
    let m ← bufPopBack m tail
    let b ← m.read tail
    if b.count = 0 then do
      let (st, m, result) ← st.popBuffer m
      let m ← deleteBuffer m result
      .ok (st, m)
    else .ok (st, m)

/-- `MarkStackInsert`: the stack and the other one. -/
def insert (st other : MarkStack) (m : Memory) :
    Except Fault (MarkStack × MarkStack × Memory) :=
  if other.isEmpty then .ok (st, other, m)
  else
    match st.h with
    | none => .ok (other, other.clean, m)
    | some _ => do
      let tail := st.t
      let otherHead := other.h
      let m ← m.modify tail fun b => { b with next := otherHead }
      let m ← m.modify otherHead fun b => { b with pre := tail }
      .ok ({ st with t := other.t, s := Words.add 64 st.s other.s }, other.clean, m)

/-- The loop of `MarkStackSplit`, with `splitNum - num` as the first argument. -/
def splitLoop : Nat → MarkStack → Memory → Except Fault (MarkStack × Memory)
  | 0, st, m => .ok (st, m)
  | remaining + 1, st, m => do
    let head := st.h
    let b ← m.read head
    let next := b.next
    let st := { st with h := next }
    let m ← if remaining = 0 then do
        let m ← match next with
          | some n => m.modify (some n) fun b => { b with pre := none }
          | none => .ok m
        m.modify head fun b => { b with next := none }
      else .ok m
    let st := { st with s := Words.sub 64 st.s 1 }
    if st.h = none then .ok ({ st with t := none }, m) else splitLoop remaining st m

/-- `MarkStackSplit`: the head of the chain that was split off. -/
def split (st : MarkStack) (m : Memory) (splitNum : Nat) :
    Except Fault (MarkStack × Memory × Option Nat) :=
  if splitNum = 0 ∨ st.s = 0 then .ok (st, m, none)
  else do
    let result := st.h
    let (st, m) ← splitLoop splitNum st m
    .ok (st, m, result)

/-! ## The machine -/

/-- The stacks `σ`, and the memory of their buffers. -/
structure State (σ : Type) where
  stackOf : σ → MarkStack
  memory : Memory

/-- An operation; `splitOff` is a `Split` whose chain the destination is constructed from. -/
inductive Op (σ : Type)
  | pushBack (i : σ) (value fresh : Nat)
  | back (i : σ)
  | popBack (i : σ)
  | insert (i other : σ)
  | splitOff (i destination : σ) (splitNum : Nat)
  | moveConstruct (destination source : σ)
  deriving DecidableEq, Repr

section Exec

variable {σ : Type} [DecidableEq σ]

def State.setStack (s : State σ) (i : σ) (x : MarkStack × Memory) : State σ :=
  { stackOf := Function.update s.stackOf i x.1, memory := x.2 }

/-- Run one operation; only `Back` returns a value. -/
def Op.exec (s : State σ) : Op σ → Except Fault (State σ × Option Nat)
  | .pushBack i value fresh => do
    let x ← (s.stackOf i).pushBack s.memory value fresh
    .ok (s.setStack i x, none)
  | .back i => do
    let value ← (s.stackOf i).back s.memory
    .ok (s, some value)
  | .popBack i => do
    let x ← (s.stackOf i).popBack s.memory
    .ok (s.setStack i x, none)
  | .insert i j => do
    let (st, other, m) ← (s.stackOf i).insert (s.stackOf j) s.memory
    .ok ({ stackOf := Function.update (Function.update s.stackOf j other) i st, memory := m }, none)
  | .splitOff i j splitNum => do
    let (st, m, buf) ← (s.stackOf i).split s.memory splitNum
    let destination ← constructFromBuffer m (s.stackOf i).s buf
    .ok ({ stackOf := Function.update (Function.update s.stackOf j destination) i st, memory := m },
      none)
  | .moveConstruct j i =>
    let (destination, source) := MarkStack.moveConstruct (s.stackOf i)
    .ok ({ s with stackOf := Function.update (Function.update s.stackOf j destination) i source },
      none)

end Exec

end MarkStack

end CangjieRuntime.Gc
