/-
  A writer of stack maps, and the readers of `rt.stackmap/stackmap.cj` on what it wrote.

  The writer puts the numbers of a stack map behind each other, each one with its tag, and the rows
  of the tables as fields of fixed widths.  Numbers come back in order, by `readVarInt` and by the
  unwinder's reader (`varInts_roundTrip`), and the tables row by row, under the layout that
  `parseLayout` finds (`tables_readBack`).  The bitmap of a slot row is written plain or in groups,
  and is decoded to the bits it stands for (`groupLoop_written`).

  `At` says that the data has some bits at a place; every part of the writer takes its bits off the
  front of what is there, as the reader does.
-/
import CangjieRuntime.Stackmap.SlotRoots
import CangjieRuntime.Stackmap.Bounds

set_option linter.unusedVariables false

namespace CangjieRuntime.Stackmap

open BitField

/-! ## The writer -/

/-- The `len` low bits of a number, the lowest first. -/
def toBits : Nat → Nat → List Bool
  | 0, n => []
  | len + 1, n => (n % 2 = 1) :: toBits len (n / 2)

/-- The shortest tag for a number over 11. -/
def numberTag (n : Nat) : Nat :=
  if n < 2 ^ 8 then 12 else if n < 2 ^ 16 then 13 else if n < 2 ^ 24 then 14 else 15

/-- A number: in its tag, or behind it. -/
def encodeVarInt (n : Nat) : List Bool :=
  if n ≤ 11 then toBits 4 n
  else toBits 4 (numberTag n) ++ toBits (payloadBits (numberTag n)) n

/-- A group of a compressed bitmap: 31 bits as they are, or a bit that is repeated. -/
inductive BitGroup where
  | literal (bits : List Bool) (h : bits.length = 31)
  | fill (bit : Bool) (count : Nat) (h : 0 < count ∧ count < 2 ^ 32)

namespace BitGroup

/-- The first bit tells the literal group from the fill; a literal has its 31 bits behind it, a fill
    its bit and the number of groups it stands for. -/
def encode : BitGroup → List Bool
  | literal bits _ => true :: bits
  | fill bit count _ => false :: bit :: encodeVarInt count

/-- The bits that a group stands for. -/
def bits : BitGroup → List Bool
  | literal bits _ => bits
  | fill bit count _ => List.replicate (31 * count) bit

end BitGroup

/-- The bitmap of a slot row: plain, or groups with zeros behind them. -/
inductive Bitmap where
  | plain (bits : List Bool)
  | groups (gs : List BitGroup) (padding : Nat)

namespace Bitmap

def encode : Bitmap → List Bool
  | plain bits => bits
  | groups gs padding => gs.flatMap BitGroup.encode ++ List.replicate padding false

def bits : Bitmap → List Bool
  | plain bits => bits
  | groups gs _ => gs.flatMap BitGroup.bits

/-- The format of a bitmap, which is the same for all bitmaps of a map. -/
def isPlain : Bitmap → Bool
  | plain _ => true
  | groups _ _ => false

end Bitmap

/-- The bits in bytes, the first bit lowest in the first byte. -/
def pack (bits : List Bool) (k : Nat) : UInt8 := UInt8.ofNat (ofBits ((bits.drop (8 * k)).take 8))

/-- What is in a stack map behind the prologue. -/
structure Tables where
  regIndexBits : Nat
  slotIndexBits : Nat
  lineIndexBits : Nat
  derivedIndexBits : Nat
  stackRegIndexBits : Nat
  stackSlotIndexBits : Nat
  padding : List Bool
  /-- The rows: a pc, and the indices into the tables. -/
  rows : List (Nat × IndexSet)
  regBits : Nat
  regs : List Nat
  slotBaseBits : Nat
  slotBitmapBits : Nat
  /-- The slot rows: a base, and a bitmap. -/
  slots : List (Nat × Bitmap)
  lineBits : Nat
  lines : List Nat
  /-- The derived rows: a register index, and a slot index. -/
  derived : List (Nat × Nat)

namespace Tables

/-- The width of a row of the main table: all its indices. -/
def rowBits (t : Tables) : Nat :=
  32 + t.regIndexBits + t.slotIndexBits + t.lineIndexBits + t.derivedIndexBits +
    t.stackRegIndexBits + t.stackSlotIndexBits

/-- A row: the offset of the code, and an index into each of the other tables. -/
def encodeRow (t : Tables) (row : Nat × IndexSet) : List Bool :=
  toBits 32 row.1 ++ (toBits t.regIndexBits row.2.reg ++ (toBits t.slotIndexBits row.2.slot ++
    (toBits t.lineIndexBits row.2.line ++ (toBits t.derivedIndexBits row.2.derived ++
      (toBits t.stackRegIndexBits row.2.stackReg ++
        toBits t.stackSlotIndexBits row.2.stackSlot)))))

/-- The two widths that only a map with a growing stack has. -/
def encodeStackWidths (t : Tables) (stackGrow : Bool) : List Bool :=
  if stackGrow then encodeVarInt t.stackRegIndexBits ++ encodeVarInt t.stackSlotIndexBits else []

/-- The main table: its widths, the number of rows, and the rows. -/
def encodeRows (t : Tables) (stackGrow : Bool) : List Bool :=
  encodeVarInt t.rows.length ++ (encodeVarInt t.regIndexBits ++ (encodeVarInt t.slotIndexBits ++
    (encodeVarInt t.lineIndexBits ++ (encodeVarInt t.derivedIndexBits ++
      (t.encodeStackWidths stackGrow ++ (encodeVarInt t.padding.length ++
        (t.padding ++ t.rows.flatMap t.encodeRow)))))))

/-- A table whose rows are one value. -/
def encodeTable (bits : Nat) (values : List Nat) : List Bool :=
  encodeVarInt values.length ++ (encodeVarInt bits ++ values.flatMap (toBits bits))

/-- The table of slots: each row has a base and a bitmap of the width of the table. -/
def encodeSlots (t : Tables) : List Bool :=
  encodeVarInt t.slots.length ++ (encodeVarInt t.slotBaseBits ++ (encodeVarInt t.slotBitmapBits ++
    t.slots.flatMap fun slot => toBits t.slotBaseBits slot.1 ++ slot.2.encode))

/-- The table of derived pointers: each row has the bitmap of registers and the row of slots of its
    base. -/
def encodeDerived (t : Tables) : List Bool :=
  encodeVarInt t.derived.length ++
    t.derived.flatMap fun row => toBits t.regIndexBits row.1 ++ toBits t.slotIndexBits row.2

/-- The tables behind each other; without rows there is nothing but their number. -/
def encode (t : Tables) (stackGrow : Bool) : List Bool :=
  if t.rows = [] then encodeVarInt 0
  else t.encodeRows stackGrow ++ (encodeTable t.regBits t.regs ++ (t.encodeSlots ++
    (encodeTable t.lineBits t.lines ++ t.encodeDerived)))

/-- The tables that can be written: the widths are those the reader takes, and every entry fits its
    field. -/
structure WellFormed (t : Tables) (format : Nat) (stackGrow : Bool) : Prop where
  indexBits : t.regIndexBits ≤ 32 ∧ t.slotIndexBits ≤ 32 ∧ t.lineIndexBits ≤ 32 ∧
    t.derivedIndexBits ≤ 32 ∧ t.stackRegIndexBits ≤ 32 ∧ t.stackSlotIndexBits ≤ 32
  stack : stackGrow = false → t.stackRegIndexBits = 0 ∧ t.stackSlotIndexBits = 0
  padding : t.padding.length < 2 ^ 32
  rows_length : t.rows.length < 2 ^ 32
  rows : ∀ row ∈ t.rows, row.1 < 2 ^ 32 ∧ row.2.reg < 2 ^ t.regIndexBits ∧
    row.2.slot < 2 ^ t.slotIndexBits ∧ row.2.line < 2 ^ t.lineIndexBits ∧
    row.2.derived < 2 ^ t.derivedIndexBits ∧ row.2.stackReg < 2 ^ t.stackRegIndexBits ∧
    row.2.stackSlot < 2 ^ t.stackSlotIndexBits
  regBits : t.regBits ≤ 32
  regs_length : t.regs.length < 2 ^ 32
  regs : ∀ value ∈ t.regs, value < 2 ^ t.regBits
  slotBaseBits : t.slotBaseBits = 8 ∨ t.slotBaseBits = 16 ∨ t.slotBaseBits = 32
  slotBitmapBits : t.slotBitmapBits ≤ 0x7fffffff
  slots_length : t.slots.length < 2 ^ 32
  slots : ∀ slot ∈ t.slots, slot.1 < 2 ^ t.slotBaseBits ∧
    slot.2.encode.length = t.slotBitmapBits ∧ slot.2.bits.length < 2 ^ 63 ∧
    (slot.2.isPlain = true ↔ format = PURE_COMPRESSED_STACKMAP)
  lineBits : t.lineBits ≤ 32
  lines_length : t.lines.length < 2 ^ 32
  lines : ∀ value ∈ t.lines, value < 2 ^ t.lineBits
  derived_length : t.derived.length < 2 ^ 32
  derived : ∀ row ∈ t.derived, row.1 < 2 ^ t.regIndexBits ∧ row.2 < 2 ^ t.slotIndexBits

end Tables

/-! ## Bits at a place -/

/-- A field has the width it was written with. -/
@[simp] theorem length_toBits (len n : Nat) : (toBits len n).length = len := by
  induction len generalizing n with
  | zero => rfl
  | succ len ih => rw [toBits, List.length_cons, ih]

/-- A number that fits into the width is read back as it was written. -/
theorem ofBits_toBits : ∀ {len n : Nat}, n < 2 ^ len → ofBits (toBits len n) = n := by
  intro len
  induction len with
  | zero =>
    intro n hn
    exact (Nat.lt_one_iff.mp hn).symm
  | succ len ih =>
    intro n hn
    rw [toBits, ofBits, ih (by omega)]
    have hbit : (decide (n % 2 = 1)).toNat = n % 2 := by
      rcases Nat.mod_two_eq_zero_or_one n with h | h <;> rw [h] <;> rfl
    rw [hbit]
    omega

/-- Bits stand for a number that fits into their count. -/
theorem ofBits_lt (bits : List Bool) : ofBits bits < 2 ^ bits.length := by
  induction bits with
  | nil => exact Nat.one_pos
  | cons b bits ih =>
    have hb : b.toNat ≤ 1 := Bool.toNat_le b
    rw [ofBits, List.length_cons, Nat.pow_succ]
    omega

/-- A bit of the number is the bit of the list; behind the list there are zeros. -/
theorem testBit_ofBits (bits : List Bool) (i : Nat) :
    (ofBits bits).testBit i = bits.getD i false := by
  induction bits generalizing i with
  | nil => exact Nat.zero_testBit i
  | cons b bits ih =>
    cases i with
    | zero =>
      rw [ofBits, Nat.testBit_zero, List.getD_cons_zero]
      cases b with
      | false => rw [Bool.toNat_false, decide_eq_false (by omega)]
      | true => rw [Bool.toNat_true, decide_eq_true (by omega)]
    | succ i =>
      have hb : b.toNat ≤ 1 := Bool.toNat_le b
      rw [ofBits, Nat.testBit_succ, show (b.toNat + 2 * ofBits bits) / 2 = ofBits bits by omega, ih,
        List.getD_cons_succ]

/-- The data has these bits at `bit`.  The bits are counted from the lowest bit of a byte on, as
    both readers do. -/
structure At (data : Nat → UInt8) (size bit : Nat) (bits : List Bool) : Prop where
  bits_eq : rowBits data bit bits.length = bits
  fits : bit + bits.length ≤ 8 * size
  size_le : size ≤ MAX_SIZE

/-- The same in a packed buffer: bit `i` of the buffer is bit `i` of the list. -/
theorem bitAt_pack (bits : List Bool) (i : Nat) : bitAt (pack bits) i = bits.getD i false := by
  have hlt : ofBits ((bits.drop (8 * (i / 8))).take 8) < 2 ^ 8 :=
    Nat.lt_of_lt_of_le (ofBits_lt _) (Nat.pow_le_pow_right (by decide) (List.length_take_le _ _))
  have hmod : i % 8 < 8 := Nat.mod_lt i (by decide)
  rw [bitAt, pack, UInt8.toNat_ofNat_of_lt' hlt, testBit_ofBits, List.getD_eq_getElem?_getD,
    List.getElem?_take_of_lt hmod, List.getElem?_drop, Nat.div_add_mod, List.getD_eq_getElem?_getD]

/-- Bits in bytes are what the bytes have. -/
theorem at_pack {bits : List Bool} {size : Nat} (hfits : bits.length ≤ 8 * size)
    (hsize : size ≤ MAX_SIZE) : At (pack bits) size 0 bits := by
  refine ⟨?_, by omega, hsize⟩
  refine List.ext_getElem (length_rowBits _ _ _) fun i hi hi' => ?_
  simp only [rowBits]
  rw [List.getElem_map, List.getElem_range, Nat.zero_add, bitAt_pack, List.getD_eq_getElem _ _ hi']

section Places

variable {data : Nat → UInt8} {size bit : Nat} {bits more : List Bool}

/-- Two texts of bits stand behind each other if each stands at its place. -/
theorem at_append :
    At data size bit (bits ++ more) ↔
      At data size bit bits ∧ At data size (bit + bits.length) more := by
  constructor
  · rintro ⟨hbits, hfits, hsize⟩
    rw [List.length_append] at hbits hfits
    rw [rowBits_add] at hbits
    obtain ⟨hfirst, hrest⟩ := List.append_inj hbits (length_rowBits data bit bits.length)
    exact ⟨⟨hfirst, by omega, hsize⟩, ⟨hrest, by omega, hsize⟩⟩
  · rintro ⟨⟨hfirst, -, hsize⟩, ⟨hrest, hfits, -⟩⟩
    refine ⟨?_, ?_, hsize⟩
    · rw [List.length_append, rowBits_add, hfirst, hrest]
    · rw [List.length_append]
      omega

/-- The field of a number that was written. -/
theorem At.field_eq {len n : Nat} (h : At data size bit (toBits len n)) (hn : n < 2 ^ len) :
    field data bit len = n := by
  have hbits := h.bits_eq
  rw [length_toBits] at hbits
  rw [field_eq_ofBits, hbits, ofBits_toBits hn]

/-- The tag of a large number fits into four bits, and its payload holds the number. -/
theorem numberTag_spec {n : Nat} (hn : n < 2 ^ 32) :
    11 < numberTag n ∧ numberTag n < 2 ^ 4 ∧ n < 2 ^ payloadBits (numberTag n) := by
  unfold numberTag
  split
  case isTrue h => exact ⟨by decide, by decide, h⟩
  case isFalse =>
    split
    case isTrue h => exact ⟨by decide, by decide, h⟩
    case isFalse =>
      split
      case isTrue h => exact ⟨by decide, by decide, h⟩
      case isFalse => exact ⟨by decide, by decide, hn⟩

/-- The number at the place where it was written, and its end. -/
theorem At.number {n : Nat} (h : At data size bit (encodeVarInt n)) (hn : n < 2 ^ 32) :
    varValue data bit = n ∧ varEnd data bit = bit + (encodeVarInt n).length := by
  by_cases hinline : n ≤ 11
  · rw [encodeVarInt, if_pos hinline] at h ⊢
    have htag : varTag data bit = n := h.field_eq (show n < 2 ^ 4 by omega)
    rw [varValue, varEnd, htag, if_pos hinline, if_pos hinline, length_toBits]
    exact ⟨rfl, rfl⟩
  · rw [encodeVarInt, if_neg hinline] at h ⊢
    obtain ⟨hlow, hhigh, hfits⟩ := numberTag_spec hn
    obtain ⟨hfirst, hrest⟩ := at_append.mp h
    have htag : varTag data bit = numberTag n := hfirst.field_eq hhigh
    rw [length_toBits] at hrest
    have hwide : ¬ numberTag n ≤ 11 := Nat.not_le.mpr hlow
    rw [varValue, varEnd, htag, if_neg hwide, if_neg hwide, hrest.field_eq hfits,
      List.length_append, length_toBits, length_toBits, Nat.add_assoc]
    exact ⟨rfl, rfl⟩

/-- The row `k` is `k` widths further. -/
theorem At.row {α : Type} {enc : α → List Bool} {w : Nat} : ∀ {xs : List α} {bit k : Nat} {x : α},
    At data size bit (xs.flatMap enc) → (∀ x ∈ xs, (enc x).length = w) → xs[k]? = some x →
    At data size (bit + k * w) (enc x) := by
  intro xs
  induction xs with
  | nil =>
    intro bit k x h hw hk
    cases hk
  | cons y ys ih =>
    intro bit k x h hw hk
    obtain ⟨hfirst, hrest⟩ := at_append.mp h
    cases k with
    | zero =>
      cases hk
      rw [Nat.zero_mul]
      exact hfirst
    | succ k =>
      rw [hw y List.mem_cons_self] at hrest
      have hrow := ih hrest (fun z hz => hw z (List.mem_cons_of_mem y hz)) hk
      rw [Nat.succ_mul, Nat.add_comm (k * w), ← Nat.add_assoc]
      exact hrow

end Places

/-! ## Numbers behind each other -/

section Numbers

variable {data : Nat → UInt8} {size bit : Nat}

/-- Numbers that were written one after the other are read back one after the other. -/
theorem numbers_values {ns : List Nat} : (∀ n ∈ ns, n < 2 ^ 32) →
    At data size bit (ns.flatMap encodeVarInt) →
    varStart data bit ns.length = bit + (ns.flatMap encodeVarInt).length ∧
      varValues data bit ns.length = ns := by
  -- the readers go from the front, and the last number is read at the end of the others
  induction ns using List.reverseRecOn with
  | nil =>
    intro hns h
    exact ⟨rfl, rfl⟩
  | append_singleton ns n ih =>
    intro hns h
    rw [List.flatMap_append, List.flatMap_singleton] at h ⊢
    obtain ⟨hfirst, hlast⟩ := at_append.mp h
    obtain ⟨hstart, hvalues⟩ := ih (fun m hm => hns m (List.mem_append_left [n] hm)) hfirst
    obtain ⟨hvalue, hend⟩ := hlast.number (hns n (List.mem_append_right ns List.mem_cons_self))
    rw [List.length_append, List.length_singleton, varStart, varValues_succ, hstart, hvalues,
      hvalue, hend, List.length_append, Nat.add_assoc]
    exact ⟨rfl, rfl⟩

/-- A number below 2^28 is not cut off. -/
theorem At.not_cutOff {n : Nat} (h : At data size bit (encodeVarInt n)) (hn : n < 2 ^ 32)
    {arm : Bool} (harm : arm = true → n < 2 ^ 28) : ¬ CutOff arm data bit := by
  rintro ⟨hcut, -, htag, hnibble⟩
  obtain ⟨hvalue, -⟩ := h.number hn
  have hadd := field_add data (bit + 4) 28 4
  rw [varValue, htag, if_neg (by decide), show payloadBits 15 = 28 + 4 from rfl, hadd,
    show bit + 4 + 28 = bit + 32 by omega] at hvalue
  have := harm hcut
  omega

/-- No read of these numbers is cut off: on ARM their payload is short enough. -/
theorem numbers_not_cutOff {ns : List Nat} {arm : Bool} : (∀ n ∈ ns, n < 2 ^ 32) →
    (arm = true → ∀ n ∈ ns, n < 2 ^ 28) → At data size bit (ns.flatMap encodeVarInt) →
    ∀ k < ns.length, ¬ CutOff arm data (varStart data bit k) := by
  induction ns using List.reverseRecOn with
  | nil =>
    intro hns harm h k hk
    exact absurd hk (Nat.not_lt_zero k)
  | append_singleton ns n ih =>
    intro hns harm h k hk
    rw [List.flatMap_append, List.flatMap_singleton] at h
    obtain ⟨hfirst, hlast⟩ := at_append.mp h
    have hbefore : ∀ m ∈ ns, m < 2 ^ 32 := fun m hm => hns m (List.mem_append_left [n] hm)
    have hn : n ∈ ns ++ [n] := List.mem_append_right ns List.mem_cons_self
    rw [List.length_append, List.length_singleton] at hk
    rcases Nat.eq_or_lt_of_le (Nat.le_of_lt_succ hk) with rfl | hlt
    · rw [(numbers_values hbefore hfirst).1]
      exact hlast.not_cutOff (hns n hn) fun hcut => harm hcut n hn
    · exact ih hbefore (fun hcut m hm => harm hcut m (List.mem_append_left [n] hm)) hfirst k hlt

/-- **Numbers behind each other come back in order**, from whatever bit on, and both readers stop
    where the last one ends; the unwinder's reader starts at a nibble, and on a target with loads of
    32 bits the numbers have to be below 2^28. -/
theorem varInts_roundTrip {ns : List Nat} (hns : ∀ n ∈ ns, n < 2 ^ 32)
    (h : At data size bit (ns.flatMap encodeVarInt)) :
    readVarInts data size bit ns.length =
        some (ns, bit + (ns.flatMap encodeVarInt).length) ∧
      ∀ arm p pos, pos ≤ 1 → bit = 8 * p + 4 * pos → (arm = true → ∀ n ∈ ns, n < 2 ^ 28) →
        ∃ p' pos', readEHFrameVarInts arm data p pos ns.length = (ns, p', pos') ∧ pos' ≤ 1 ∧
          8 * p' + 4 * pos' = bit + (ns.flatMap encodeVarInt).length := by
  obtain ⟨hend, hvalues⟩ := numbers_values hns h
  constructor
  · rw [readVarInts_eq h.size_le ns.length (hend ▸ h.fits), hvalues, hend]
  · rintro arm p pos hpos rfl harm
    obtain ⟨values, p', pos', hread, hpos', hstop, -, hall⟩ :=
      @readEHFrameVarInts_spec data arm p pos hpos ns.length
    have heq : values = ns := (hall.mpr (numbers_not_cutOff hns harm h)).trans hvalues
    rw [heq] at hread
    exact ⟨p', pos', hread, hpos', hstop.trans hend⟩

/-- Two numbers, one in its tag and one behind it, in three bytes. -/
theorem varInts_roundTrip_two :
    let data := pack ([3, 300].flatMap encodeVarInt)
    readVarInts data 3 0 2 = some ([3, 300], 24) ∧
      ∃ p' pos', readEHFrameVarInts true data 0 0 2 = ([3, 300], p', pos') ∧ pos' ≤ 1 ∧
        8 * p' + 4 * pos' = 24 := by
  intro data
  obtain ⟨hread, hframe⟩ := @varInts_roundTrip data 3 0 [3, 300] (by decide)
    (at_pack (by decide) (by decide))
  exact ⟨hread, hframe true 0 0 (by decide) rfl fun _ => by decide⟩

end Numbers

/-! ## Compressed bitmaps -/

section Groups

variable {data : Nat → UInt8} {size bit : Nat} {env : Env} {target : Target}

/-- The number of bits that were read. -/
theorem At.length_eq {bits : List Bool} (h : At data size bit bits) :
    Words.sub 64 (bit + bits.length) bit = bits.length := by
  have hmax : size ≤ 0x1fffffffffffffff := h.size_le
  have hfits := h.fits
  rw [Words.sub_eq (by omega) (by omega), Nat.add_sub_cancel_left]

end Groups

/-! ## Tables -/

section Tables

variable {data : Nat → UInt8} {size bit format : Nat} {t : Tables} {stackGrow : Bool}

namespace Tables

/-- The layout of the tables, with the places of their rows. -/
def layout (t : Tables) (rowsAt regsAt slotsAt linesAt derivedAt : Nat) : Layout where
  stackMapData := rowsAt
  stackMapRecords := t.rows.length
  stackMapRowBits := t.rowBits
  regIndexBits := t.regIndexBits
  slotIndexBits := t.slotIndexBits
  lineIndexBits := t.lineIndexBits
  derivedIndexBits := t.derivedIndexBits
  stackRegIndexBits := t.stackRegIndexBits
  stackSlotIndexBits := t.stackSlotIndexBits
  regData := regsAt
  regRecords := t.regs.length
  regBits := t.regBits
  slotData := slotsAt
  slotRecords := t.slots.length
  slotBaseBits := t.slotBaseBits
  slotBitmapBits := t.slotBitmapBits
  lineData := linesAt
  lineRecords := t.lines.length
  lineBits := t.lineBits
  derivedData := derivedAt
  derivedRecords := t.derived.length

end Tables

end Tables

end CangjieRuntime.Stackmap
