/-
  Stack maps of untrusted bytes.

  The decoder reads no byte behind the data: such a read is a fault, which ends the run, and no run
  ends so (`stackMapDecode_noFault`); and what it does is the same for all data that agree below the
  size (`decodeBody_congr`).  The bounds of a layout (`Inside`) are checked when it is parsed
  (`parseLayout_inside`), and they are all that a later access needs: no offset of a row wraps, and
  every read of a row succeeds.  So a decoder of plain bitmaps that has a layout stops only because
  of an index without a row, or for want of room (`decodeRows_stops`).
-/
import CangjieRuntime.Stackmap.Modes

set_option linter.unusedVariables false

namespace CangjieRuntime.Stackmap

open BitField

/-! ## No byte behind the data -/

section Congruence

variable {data data' : Nat → UInt8} {size : Nat}

/-- The data agree below the size.  A result that is the same for both cannot depend on a byte
    behind the data. -/
def SameData (size : Nat) (data data' : Nat → UInt8) : Prop := ∀ p < size, data p = data' p

/-- A field inside the data is made of the bytes of the data. -/
theorem field_congr (h : SameData size data data') {bit len : Nat} (hin : bit + len ≤ 8 * size) :
    field data bit len = field data' bit len := by
  induction len with
  | zero => rfl
  | succ len ih =>
    rw [field, field, ih (by omega), bitAt, bitAt, h ((bit + len) / 8) (by omega)]

/-- A read of bits looks at the bytes of the data only. -/
theorem readBits_congr (h : SameData size data data') :
    readBits data size = readBits data' size := by
  funext bit bitLen
  rw [readBits_eq, readBits_eq]
  refine ite_congr rfl (fun _ => rfl) fun _ => ite_congr rfl (fun _ => rfl) fun hin => ?_
  rw [field_congr h (by omega)]

/-- So does the read of a number, which is two reads of bits. -/
theorem readVarInt_congr (h : SameData size data data') :
    readVarInt data size = readVarInt data' size := by
  funext bit
  simp only [readVarInt, readBits_congr h]

/-- So does the read of a row. -/
theorem readTableRow_congr (h : SameData size data data') :
    readTableRow data size = readTableRow data' size := by
  funext tableData recordCount rowBits oneBasedIndex
  simp only [readTableRow, readBits_congr h]

/-- So do the reads of the indices of a row. -/
theorem readIndexSet_congr (h : SameData size data data') :
    readIndexSet data size = readIndexSet data' size := by
  funext layout row
  simp only [readIndexSet, readBits_congr h]

/-- So does the layout, for all its reads are those above. -/
theorem parseLayout_congr (h : SameData size data data') :
    parseLayout data size = parseLayout data' size := by
  have hvar := readVarInt_congr h
  have hrows : parseRows data size = parseRows data' size := by
    funext bitStart stackGrow
    simp only [parseRows, hvar]
  have htable : parseTable data size = parseTable data' size := by
    funext cursor
    simp only [parseTable, hvar]
  have hslots : parseSlots data size = parseSlots data' size := by
    funext cursor
    simp only [parseSlots, hvar]
  funext bitStart stackGrow
  simp only [parseLayout, hrows, htable, hslots, hvar]

variable (env : Env) (target : Target)

/-- The loop over a plain bitmap, by induction on the bits that remain. -/
theorem pureLoop_congr (h : SameData size data data') (baseBias : BitVec 64) (remain : Nat) :
    ∀ cursor logicalSlot s, pureLoop env target data size baseBias remain cursor logicalSlot s =
      pureLoop env target data' size baseBias remain cursor logicalSlot s := by
  induction remain using Nat.strong_induction_on with
  | _ remain ih =>
    intro cursor logicalSlot s
    rw [pureLoop, pureLoop, readBits_congr h]
    by_cases hzero : remain = 0
    · rw [dif_pos hzero, dif_pos hzero]
    · rw [dif_neg hzero, dif_neg hzero]
      refine ite_congr rfl (fun _ => rfl) fun _ => bind_congr fun s => ih _ ?_ _ _ s
      split <;> omega

/-- The loop over a compressed bitmap, by induction on the bits that remain. -/
theorem groupLoop_congr (h : SameData size data data') (remain : Nat) :
    ∀ (baseBias : BitVec 64) cursor s, groupLoop env target data size baseBias remain cursor s =
      groupLoop env target data' size baseBias remain cursor s := by
  induction remain using Nat.strong_induction_on with
  | _ remain ih =>
    intro baseBias cursor s
    rw [groupLoop, groupLoop, readBits_congr h, readVarInt_congr h]
    by_cases hzero : remain = 0
    · rw [dif_pos hzero, dif_pos hzero]
    · rw [dif_neg hzero, dif_neg hzero]
      refine ite_congr rfl (fun _ => rfl) fun _ => ite_congr rfl (fun _ => ?_) fun _ => ?_
      · -- a literal group
        refine ite_congr rfl (fun _ => rfl) fun _ => bind_congr fun s => ih _ ?_ _ _ s
        omega
      · -- a fill
        refine ite_congr rfl (fun _ => rfl) fun _ => ite_congr rfl (fun _ => rfl) fun _ =>
          ite_congr rfl (fun _ => rfl) fun _ => ite_congr rfl (fun _ => rfl) fun _ =>
          ite_congr rfl (fun _ => rfl) fun _ => ite_congr rfl (fun _ => ?_) fun _ => ?_
        · exact bind_congr fun s => ih _ (by omega) _ _ s
        · exact bind_congr fun s => ih _ (by omega) _ _ s

/-- The slot roots of a row do not depend on what is behind the data. -/
theorem decodeSlotRoots_congr (h : SameData size data data') :
    decodeSlotRoots env target data size = decodeSlotRoots env target data' size := by
  funext layout slotIndex format events eventStart
  simp only [decodeSlotRoots, readBits_congr h, pureLoop_congr env target h,
    groupLoop_congr env target h]

variable (arch : Arch) (layout : Layout) (format pc capacity : Nat)

/-- Nor do the register roots. -/
theorem decodeRegRoots_congr (h : SameData size data data') :
    decodeRegRoots data size = decodeRegRoots data' size := by
  funext arch target layout regIndex events eventStart
  simp only [decodeRegRoots, readTableRow_congr h]

/-- Nor do the derived roots, by induction on the bases that remain. -/
theorem derivedLoop_congr (h : SameData size data data') (derivedIndex : Nat) :
    ∀ remaining baseOrdinal s,
      derivedLoop data size arch layout format pc capacity derivedIndex remaining baseOrdinal s =
        derivedLoop data' size arch layout format pc capacity derivedIndex remaining baseOrdinal
          s := by
  intro remaining
  induction remaining with
  | zero =>
    intro baseOrdinal s
    rfl
  | succ remaining ih =>
    intro baseOrdinal s
    simp only [derivedLoop, readBits_congr h, decodeRegRoots_congr h, decodeSlotRoots_congr _ _ h, ih]

/-- Nor does a row with all its roots. -/
theorem decodeRow_congr (h : SameData size data data') :
    decodeRow data size arch layout format pc capacity =
      decodeRow data' size arch layout format pc capacity := by
  funext indices s
  simp only [decodeRow, decodeDerived, readTableRow_congr h, decodeRegRoots_congr h,
    decodeSlotRoots_congr _ _ h, derivedLoop_congr arch layout format pc capacity h]

/-- Nor do all rows, by induction on their number. -/
theorem decodeRows_congr (h : SameData size data data') : ∀ remaining row s,
    decodeRows data size arch layout format capacity remaining row s =
      decodeRows data' size arch layout format capacity remaining row s := by
  intro remaining
  induction remaining with
  | zero =>
    intro row s
    rfl
  | succ remaining ih =>
    intro row s
    simp only [decodeRows, readIndexSet_congr h, decodeRow_congr arch layout format _ capacity h, ih]

/-- Nor does the loop over the prologue. -/
theorem prologueLoop_congr (h : SameData size data data') (bits : Nat) : ∀ reg cursor s,
    prologueLoop data size capacity bits reg cursor s =
      prologueLoop data' size capacity bits reg cursor s := by
  induction bits using Nat.strong_induction_on with
  | _ bits ih =>
    intro reg cursor s
    by_cases hzero : bits = 0
    · rw [prologueLoop, dif_pos hzero, prologueLoop, dif_pos hzero]
    · have hlt : bits >>> 1 < bits := by
        rw [Nat.shiftRight_eq_div_pow]
        omega
      rw [prologueLoop, dif_neg hzero, readVarInt_congr h]
      conv_rhs => rw [prologueLoop, dif_neg hzero]
      refine ite_congr rfl (fun _ => ?_) fun _ => ih _ hlt _ _ s
      exact bind_congr fun offset => bind_congr fun s => ih _ hlt _ _ s

/-- **No byte behind the data matters.**  Every read goes through `readBits`, which is the same for
    both, and so are all computations from what was read. -/
theorem decodeBody_congr (h : SameData size data data') (stackGrow : Bool) (s : Emitted) :
    decodeBody data size arch capacity stackGrow s =
      decodeBody data' size arch capacity stackGrow s := by
  simp only [decodeBody, readVarInt_congr h, prologueLoop_congr capacity h, parseLayout_congr h,
    decodeRows_congr arch _ _ capacity h]

end Congruence

/-! ## The bounds of a layout -/

section Layouts

variable {data : Nat → UInt8} {size : Nat} {α β : Type}

/-- A table of `rows` rows of `rowBits` bits from `start` on is inside the data. -/
def TableIn (size start rows rowBits : Nat) : Prop := start + rows * rowBits ≤ 8 * size

/-- The tables of a layout are inside the data. -/
structure Inside (size : Nat) (layout : Layout) : Prop where
  size_le : size ≤ MAX_SIZE
  rowBits : layout.stackMapRowBits = 32 + layout.regIndexBits + layout.slotIndexBits +
    layout.lineIndexBits + layout.derivedIndexBits + layout.stackRegIndexBits +
    layout.stackSlotIndexBits
  regIndexBits : layout.regIndexBits ≤ 32
  slotIndexBits : layout.slotIndexBits ≤ 32
  lineIndexBits : layout.lineIndexBits ≤ 32
  derivedIndexBits : layout.derivedIndexBits ≤ 32
  stackRegIndexBits : layout.stackRegIndexBits ≤ 32
  stackSlotIndexBits : layout.stackSlotIndexBits ≤ 32
  regBits : layout.regBits ≤ 32
  slotBaseBits : layout.slotBaseBits ≤ 32
  lineBits : layout.lineBits ≤ 32
  derivedRecords : layout.derivedRecords < 2 ^ 32
  rows : TableIn size layout.stackMapData layout.stackMapRecords layout.stackMapRowBits
  regs : TableIn size layout.regData layout.regRecords layout.regBits
  slots : TableIn size layout.slotData layout.slotRecords
    (layout.slotBaseBits + layout.slotBitmapBits)
  lines : TableIn size layout.lineData layout.lineRecords layout.lineBits
  derived : TableIn size layout.derivedData layout.derivedRecords
    (layout.regIndexBits + layout.slotIndexBits)

/-- Two steps end well only if both do. -/
theorem bind_eq_ok {a : Except α β} {γ : Type} {f : β → Except α γ} {c : γ}
    (h : (a >>= f) = .ok c) : ∃ b, a = .ok b ∧ f b = .ok c := by
  cases a with
  | error e => cases h
  | ok b => exact ⟨b, rfl, h⟩

/-- A check lets a result through only if its code is that of success. -/
theorem check_eq_ok {r r' : WordResult} (h : r.check = .ok r') : r.code = STACKMAP_OK ∧ r' = r := by
  rw [WordResult.check] at h
  split at h
  case isTrue => cases h
  case isFalse hcode =>
    cases h
    exact ⟨not_not.mp hcode, rfl⟩

/-- What is behind a guard is reached only if the guard does not hold. -/
theorem ite_error_eq_ok {c : Prop} [Decidable c] {e : α} {a : Except α β} {b : β}
    (h : (if c then .error e else a) = .ok b) : ¬ c ∧ a = .ok b := by
  split at h
  case isTrue => cases h
  case isFalse hc => exact ⟨hc, h⟩

/-- A value that was read has 32 bits, and the cursor stays in the data. -/
theorem check_readVarInt {bit : Nat} {r : WordResult}
    (h : (readVarInt data size bit).check = .ok r) :
    size ≤ MAX_SIZE ∧ r.value < 2 ^ 32 ∧ bit < r.nextBit ∧ r.nextBit ≤ 8 * size := by
  obtain ⟨hok, rfl⟩ := check_eq_ok h
  obtain ⟨hsize, hend⟩ := readVarInt_of_ok hok
  rw [readVarInt_ok hsize hend]
  refine ⟨hsize, varValue_lt data bit, ?_, hend⟩
  have hlt := lt_varEnd data bit
  show bit < varEnd data bit
  omega

/-- A table that was checked is inside the data, and neither its size nor its end wraps. -/
theorem checkedEnd_of_ok {start rows rowBits : Nat} (hrows : rows < 2 ^ 32)
    (hrowBits : rowBits < 2 ^ 32) (h : (checkedEnd start rows rowBits size).code = STACKMAP_OK) :
    size ≤ MAX_SIZE ∧ TableIn size start rows rowBits ∧
      (checkedEnd start rows rowBits size).nextBit = start + rows * rowBits := by
  rw [checkedEnd] at h ⊢
  split at h
  case isTrue => simp at h
  case isFalse hsize =>
    rw [if_neg hsize]
    have hmax : size ≤ 0x1fffffffffffffff := Nat.not_lt.mp hsize
    have htotal : Words.mul 64 size 8 = 8 * size := by
      rw [Words.mul_eq (by omega), Nat.mul_comm]
    have hspan : Words.mul 64 rows rowBits = rows * rowBits := by
      refine Words.mul_eq ?_
      have := Nat.mul_lt_mul'' hrows hrowBits
      omega
    dsimp only at h ⊢
    split at h
    case isTrue => simp at h
    case isFalse hfits =>
      rw [if_neg hfits]
      rw [htotal, hspan] at hfits
      have hstart : start ≤ 8 * size := by omega
      rw [Words.sub_eq hstart (by omega)] at hfits
      have hin : start + rows * rowBits ≤ 8 * size := by omega
      refine ⟨Nat.not_lt.mp hsize, hin, ?_⟩
      show Words.add 64 start (Words.mul 64 rows rowBits) = start + rows * rowBits
      rw [hspan, Words.add_eq (by omega)]

/-- A table whose end passed the check is inside the data. -/
theorem check_checkedEnd {start rows rowBits : Nat} {r : WordResult} (hrows : rows < 2 ^ 32)
    (hrowBits : rowBits < 2 ^ 32) (h : (checkedEnd start rows rowBits size).check = .ok r) :
    TableIn size start rows rowBits :=
  (checkedEnd_of_ok hrows hrowBits (check_eq_ok h).1).2.1

/-- A table that was parsed has a row size of at most 32 bits, and is inside the data. -/
theorem parseTable_inside {cursor tableData records bits tableEnd : Nat}
    (h : parseTable data size cursor = .ok (tableData, records, bits, tableEnd)) :
    bits ≤ 32 ∧ TableIn size tableData records bits := by
  obtain ⟨r1, h1, h⟩ := bind_eq_ok h
  obtain ⟨r2, h2, h⟩ := bind_eq_ok h
  obtain ⟨hbits, h⟩ := ite_error_eq_ok h
  obtain ⟨r3, h3, h⟩ := bind_eq_ok h
  cases h
  have hrecords := (check_readVarInt h1).2.1
  exact ⟨Nat.not_lt.mp hbits, check_checkedEnd hrecords (by omega) h3⟩

/-- So is the table of slots, with a base of at most 32 bits and the bitmap behind it. -/
theorem parseSlots_inside {cursor tableEnd : Nat} {slots : SlotLayout}
    (h : parseSlots data size cursor = .ok (slots, tableEnd)) :
    slots.slotBaseBits ≤ 32 ∧ TableIn size slots.slotData slots.slotRecords
      (slots.slotBaseBits + slots.slotBitmapBits) := by
  obtain ⟨r1, h1, h⟩ := bind_eq_ok h
  obtain ⟨r2, h2, h⟩ := bind_eq_ok h
  obtain ⟨r3, h3, h⟩ := bind_eq_ok h
  obtain ⟨hbits, h⟩ := ite_error_eq_ok h
  obtain ⟨hrow, h⟩ := ite_error_eq_ok h
  obtain ⟨r4, h4, h⟩ := bind_eq_ok h
  cases h
  have hrecords := (check_readVarInt h1).2.1
  have hrowBits : r2.value + r3.value < 2 ^ 32 := by omega
  refine ⟨?_, check_checkedEnd hrecords hrowBits h4⟩
  show r2.value ≤ 32
  omega

/-- What `parseRows` checks. -/
theorem parseRows_inside {bitStart cursor : Nat} {stackGrow : Bool} {layout : Layout}
    (h : parseRows data size bitStart stackGrow = .ok (layout, cursor)) :
    layout.stackMapRecords = 0 ∨
      (layout.stackMapRowBits = 32 + layout.regIndexBits + layout.slotIndexBits +
          layout.lineIndexBits + layout.derivedIndexBits + layout.stackRegIndexBits +
          layout.stackSlotIndexBits ∧
        (layout.regIndexBits ≤ 32 ∧ layout.slotIndexBits ≤ 32 ∧ layout.lineIndexBits ≤ 32 ∧
          layout.derivedIndexBits ≤ 32 ∧ layout.stackRegIndexBits ≤ 32 ∧
          layout.stackSlotIndexBits ≤ 32) ∧
        TableIn size layout.stackMapData layout.stackMapRecords layout.stackMapRowBits) := by
  obtain ⟨r1, h1, h⟩ := bind_eq_ok h
  split at h
  case isTrue =>
    cases h
    exact Or.inl rfl
  case isFalse =>
    obtain ⟨r2, h2, h⟩ := bind_eq_ok h
    obtain ⟨r3, h3, h⟩ := bind_eq_ok h
    obtain ⟨r4, h4, h⟩ := bind_eq_ok h
    obtain ⟨r5, h5, h⟩ := bind_eq_ok h
    obtain ⟨⟨stackReg, stackSlot, cursor'⟩, h6, h⟩ := bind_eq_ok h
    obtain ⟨r7, h7, h⟩ := bind_eq_ok h
    obtain ⟨hbits, h⟩ := ite_error_eq_ok h
    obtain ⟨hrow, h⟩ := ite_error_eq_ok h
    obtain ⟨hdata, h⟩ := ite_error_eq_ok h
    obtain ⟨r8, h8, h⟩ := bind_eq_ok h
    cases h
    have hrecords := (check_readVarInt h1).2.1
    have hrowBits : 32 + r2.value + r3.value + r4.value + r5.value + stackReg + stackSlot <
        2 ^ 32 := by omega
    refine Or.inr ⟨rfl, ?_, check_checkedEnd hrecords hrowBits h8⟩
    dsimp only
    omega

/-- **A layout that was parsed is inside the data**, or has no rows. -/
theorem parseLayout_inside {bitStart : Nat} {stackGrow : Bool} {layout : Layout}
    (h : parseLayout data size bitStart stackGrow = .ok layout) :
    layout.stackMapRecords = 0 ∨ Inside size layout := by
  obtain ⟨⟨head, cursor⟩, h1, h⟩ := bind_eq_ok h
  dsimp only at h
  split at h
  case isTrue hnone =>
    cases h
    exact Or.inl hnone
  case isFalse hsome =>
    obtain ⟨⟨regData, regRecords, regBits, regEnd⟩, h2, h⟩ := bind_eq_ok h
    obtain ⟨⟨slots, slotEnd⟩, h3, h⟩ := bind_eq_ok h
    obtain ⟨⟨lineData, lineRecords, lineBits, lineEnd⟩, h4, h⟩ := bind_eq_ok h
    obtain ⟨r5, h5, h⟩ := bind_eq_ok h
    obtain ⟨hbits, h⟩ := ite_error_eq_ok h
    obtain ⟨r6, h6, h⟩ := bind_eq_ok h
    cases h
    obtain ⟨hsize, hrecords, -⟩ := check_readVarInt h5
    rcases parseRows_inside h1 with hnone | ⟨hrow, hindex, hrows⟩
    · exact Or.inl hnone
    · obtain ⟨hreg, hslot, hline, hderived, hstackReg, hstackSlot⟩ := hindex
      have hregs := parseTable_inside h2
      have hslots := parseSlots_inside h3
      have hlines := parseTable_inside h4
      have hend := check_checkedEnd hrecords (by omega) h6
      exact Or.inr ⟨hsize, hrow, hreg, hslot, hline, hderived, hstackReg, hstackSlot, hregs.1,
        hslots.1, hlines.1, hrecords, hrows, hregs.2, hslots.2, hlines.2, hend⟩

end Layouts

/-! ## Accesses -/

section Accesses

variable {data : Nat → UInt8} {size : Nat} {layout : Layout}

/-- A row of a table is inside the data, and its offset does not wrap. -/
theorem TableIn.row {start rows rowBits row : Nat} (h : TableIn size start rows rowBits)
    (hsize : size ≤ MAX_SIZE) (hrow : row < rows) :
    start + row * rowBits + rowBits ≤ 8 * size ∧
      Words.add 64 start (Words.mul 64 row rowBits) = start + row * rowBits := by
  have hmul : row * rowBits + rowBits ≤ rows * rowBits := by
    rw [← Nat.succ_mul]
    exact Nat.mul_le_mul_right rowBits hrow
  have hin : start + rows * rowBits ≤ 8 * size := h
  have hmax : size ≤ 0x1fffffffffffffff := hsize
  refine ⟨by omega, ?_⟩
  rw [Words.mul_eq (by omega), Words.add_eq (by omega)]

/-- A read inside the data passes the check after it. -/
theorem check_readBits {bit bitLen : Nat} (hlen : bitLen ≤ 32) (hsize : size ≤ MAX_SIZE)
    (hin : bit + bitLen ≤ 8 * size) : (readBits data size bit bitLen).check =
      .ok ⟨STACKMAP_OK, field data bit bitLen, bit + bitLen⟩ := by
  rw [readBits_ok hlen hsize hin]
  rfl

/-- Every row has its indices. -/
theorem Inside.readIndexSet (h : Inside size layout) {row : Nat}
    (hrow : row < layout.stackMapRecords) :
    ∃ r, readIndexSet data size layout row = .ok r := by
  obtain ⟨hin, hoffset⟩ := h.rows.row h.size_le hrow
  have hbits := h.rowBits
  have hsize := h.size_le
  unfold CangjieRuntime.Stackmap.readIndexSet
  rw [hoffset]
  generalize layout.stackMapData + row * layout.stackMapRowBits = cursor at hin
  dsimp only
  rw [check_readBits (by decide) hsize (by omega)]
  dsimp only [bind, Except.bind]
  rw [check_readBits h.regIndexBits hsize (by omega)]
  dsimp only [bind, Except.bind]
  rw [check_readBits h.slotIndexBits hsize (by omega)]
  dsimp only [bind, Except.bind]
  rw [check_readBits h.lineIndexBits hsize (by omega)]
  dsimp only [bind, Except.bind]
  rw [check_readBits h.derivedIndexBits hsize (by omega)]
  dsimp only [bind, Except.bind]
  rw [check_readBits h.stackRegIndexBits hsize (by omega)]
  dsimp only [bind, Except.bind]
  rw [check_readBits h.stackSlotIndexBits hsize (by omega)]
  exact ⟨_, rfl⟩

/-- A row of a checked table is read, if there is one with that index. -/
theorem readTableRow_cases {start rows rowBits index : Nat} (h : TableIn size start rows rowBits)
    (hsize : size ≤ MAX_SIZE) (hbits : rowBits ≤ 32) :
    (readTableRow data size start rows rowBits index).code = STACKMAP_OK ∧ index ≤ rows ∨
      (readTableRow data size start rows rowBits index).code = STACKMAP_MALFORMED ∧
        rows < index := by
  rw [readTableRow]
  split
  case isTrue hzero => exact Or.inl ⟨rfl, by omega⟩
  case isFalse hpos =>
    split
    case isTrue hlarge => exact Or.inr ⟨rfl, hlarge⟩
    case isFalse hle =>
      obtain ⟨hin, hoffset⟩ := @TableIn.row size _ _ _ (index - 1) h hsize (by omega)
      dsimp only
      rw [hoffset, readBits_ok hbits hsize hin]
      exact Or.inl ⟨rfl, Nat.not_lt.mp hle⟩

/-- A slot row starts where it should, and is inside the data. -/
theorem Inside.slotRow (h : Inside size layout) {slotIndex : Nat} (hpos : 0 < slotIndex)
    (hle : slotIndex ≤ layout.slotRecords) :
    layout.slots.rowStart slotIndex = layout.slotData +
        (slotIndex - 1) * (layout.slotBaseBits + layout.slotBitmapBits) ∧
      layout.slots.rowStart slotIndex + layout.slotBaseBits + layout.slotBitmapBits ≤ 8 * size := by
  obtain ⟨hin, hoffset⟩ := @TableIn.row size _ _ _ (slotIndex - 1) h.slots h.size_le (by omega)
  have hmax : size ≤ 0x1fffffffffffffff := h.size_le
  have hadd : Words.add 64 layout.slotBaseBits layout.slotBitmapBits =
      layout.slotBaseBits + layout.slotBitmapBits := Words.add_eq (by omega)
  have hstart : layout.slots.rowStart slotIndex = layout.slotData +
      (slotIndex - 1) * (layout.slotBaseBits + layout.slotBitmapBits) := by
    rw [← hoffset, SlotLayout.rowStart]
    simp only [Layout.slots, hadd]
  exact ⟨hstart, by rw [hstart]; omega⟩

/-- A derived row is where it should be, and both its indices are read. -/
theorem Inside.derivedRow (h : Inside size layout) {derivedIndex baseOrdinal : Nat}
    (hpos : 0 < derivedIndex) (hlt : derivedIndex - 1 + baseOrdinal < layout.derivedRecords) :
    Words.add 64 layout.derivedData (Words.mul 64 (Words.add 64 (derivedIndex - 1) baseOrdinal)
        (Words.add 32 layout.regIndexBits layout.slotIndexBits)) =
      layout.derivedData + (derivedIndex - 1 + baseOrdinal) *
        (layout.regIndexBits + layout.slotIndexBits) ∧
    layout.derivedData + (derivedIndex - 1 + baseOrdinal) *
        (layout.regIndexBits + layout.slotIndexBits) +
      layout.regIndexBits + layout.slotIndexBits ≤ 8 * size := by
  obtain ⟨hin, hoffset⟩ := h.derived.row h.size_le hlt
  have hrecords := h.derivedRecords
  have hreg := h.regIndexBits
  have hslot := h.slotIndexBits
  have hordinal : Words.add 64 (derivedIndex - 1) baseOrdinal = derivedIndex - 1 + baseOrdinal :=
    Words.add_eq (by omega)
  have hbits : Words.add 32 layout.regIndexBits layout.slotIndexBits =
      layout.regIndexBits + layout.slotIndexBits := Words.add_eq (by omega)
  rw [hordinal, hbits]
  exact ⟨hoffset, by omega⟩

end Accesses

/-! ## How a decoder of plain bitmaps stops -/

section Stops

variable {data : Nat → UInt8} {size : Nat} {layout : Layout} {α β : Type}

/-- A stop because of an index without a row, or for want of room. -/
def Stops (x : Except Stop α) : Prop :=
  ∀ stop, x = .error stop → stop.1.code = STACKMAP_MALFORMED ∨ stop.1.code = STACKMAP_NO_SPACE

/-- A result is no stop. -/
theorem stops_ok (a : α) : Stops (.ok a) := nofun

/-- Two steps stop as each of them does. -/
theorem Stops.bind {x : Except Stop α} {f : α → Except Stop β} (hx : Stops x)
    (hf : ∀ a, Stops (f a)) : Stops (x >>= f) := by
  cases x with
  | error stop =>
    intro stop' h
    cases h
    exact hx stop rfl
  | ok a => exact hf a

/-- A choice stops as its branches do. -/
theorem stops_ite {c : Prop} [Decidable c] {x y : Except Stop α} (hx : c → Stops x)
    (hy : ¬ c → Stops y) : Stops (if c then x else y) := by
  split
  case isTrue h => exact hx h
  case isFalse h => exact hy h

/-- A read of the data stops the decoder only where it finds it malformed. -/
theorem stops_read {s : Emitted} {a : Except Nat α}
    (h : ∀ code, a = .error code → code = STACKMAP_MALFORMED) : Stops (s.read a) := by
  cases a with
  | error code =>
    intro stop heq
    cases heq
    exact Or.inl (h code rfl)
  | ok x => exact stops_ok x

/-- An event has no room, or it does not stop the decoder. -/
theorem stops_emitOne (capacity : Nat) (s : Emitted) (event : StackMapEvent) :
    Stops (emitOne capacity s event) := by
  unfold emitOne
  dsimp only
  refine stops_ite (fun hcode => ?_) fun _ => stops_ok _
  intro stop heq
  cases heq
  exact Or.inr ((emitEvent_code s.events capacity s.eventIndex event).resolve_left hcode)

/-- Nor does a root. -/
theorem stops_emitRoot (target : Target) (s : Emitted) (bias : BitVec 64) :
    Stops (emitRoot target s bias) := by
  rcases emitEvent_code s.events target.capacity s.eventIndex (target.event bias) with hcode | hcode
  · unfold emitRoot emitSlot
    simp only [hcode, ne_eq, not_true_eq_false, if_false]
    exact stops_ok _
  · unfold emitRoot emitSlot
    intro stop heq
    simp [hcode] at heq
    rw [← heq]
    exact Or.inr rfl

variable (env : Env) (arch : Arch) (target : Target)

/-- The bits of a chunk are roots. -/
theorem stops_emitBits (baseBias : BitVec 64) (logicalSlot : Nat) : ∀ remaining chunk bit s,
    Stops (emitBits env target baseBias logicalSlot remaining chunk bit s) := by
  intro remaining
  induction remaining with
  | zero =>
    intro chunk bit s
    exact stops_ok s
  | succ remaining ih =>
    intro chunk bit s
    refine stops_ite (fun _ => stops_ok s) fun _ => stops_ite (fun _ => ?_) fun _ => ?_
    · exact (stops_emitRoot target s _).bind fun s => ih _ _ s
    · exact (stops_ok s).bind fun s => ih _ _ s

/-- Every chunk of a plain bitmap is read. -/
theorem stops_pureLoop (hsize : size ≤ MAX_SIZE) (baseBias : BitVec 64) (remain : Nat) :
    ∀ cursor logicalSlot s, cursor + remain ≤ 8 * size →
      Stops (pureLoop env target data size baseBias remain cursor logicalSlot s) := by
  induction remain using Nat.strong_induction_on with
  | _ remain ih =>
    intro cursor logicalSlot s hin
    rw [pureLoop]
    by_cases hzero : remain = 0
    · rw [dif_pos hzero]
      exact stops_ok s
    · rw [dif_neg hzero]
      have hchunk : (if remain < 32 then remain else 32) ≤ 32 ∧
          (if remain < 32 then remain else 32) ≤ remain ∧
          0 < (if remain < 32 then remain else 32) := by
        split <;> omega
      generalize (if remain < 32 then remain else 32) = chunkBits at hchunk
      dsimp only
      rw [readBits_ok hchunk.1 hsize (by omega)]
      refine stops_ite (fun hcode => absurd rfl hcode) fun _ => ?_
      exact (stops_emitBits env target _ _ _ _ _ s).bind fun s =>
        ih _ (by omega) _ _ s
          (show cursor + chunkBits + (remain - chunkBits) ≤ 8 * size by omega)

/-- A decoder that is called stops its caller as its loop stopped. -/
theorem stops_call_finish {x : Except Stop Emitted} (h : Stops x) : Stops (call (finish x)) := by
  cases x with
  | ok s => exact stops_ok _
  | error stop =>
    intro stop' heq
    have hcode := h stop rfl
    show stop'.1.code = _ ∨ _
    obtain ⟨result, events⟩ := stop
    have hne : result.code ≠ STACKMAP_OK := by
      rcases hcode with hcode | hcode <;> rw [hcode] <;> decide
    rw [show finish (.error (result, events)) = (result, events) from rfl, call, if_pos hne] at heq
    cases heq
    exact hcode

/-- A decoder that finds an index without a row. -/
theorem stops_call_error {code : Nat} {events : Events} {start roots : Nat}
    (h : code = STACKMAP_MALFORMED) : Stops (call (⟨code, start, roots⟩, events)) := by
  intro stop heq
  have hcode : code ≠ STACKMAP_OK := by
    rw [h]
    decide
  rw [call, if_pos hcode] at heq
  cases heq
  exact Or.inl h

/-- The slot roots of a plain row inside the data: the base and all chunks of the bitmap are
    read. -/
theorem stops_decodeSlotRoots (h : Inside size layout) (slotIndex : Nat) (events : Events)
    (start : Nat) : Stops (call (decodeSlotRoots env target data size layout.slots slotIndex
      PURE_COMPRESSED_STACKMAP events start)) := by
  rw [decodeSlotRoots]
  split
  case isTrue => exact stops_ok _
  case isFalse hzero =>
    split
    case isTrue => exact stops_call_error rfl
    case isFalse hle =>
      have hrow := (h.slotRow (Nat.pos_of_ne_zero hzero) (Nat.not_lt.mp hle)).2
      have hbase : layout.slots.slotBaseBits ≤ 32 := h.slotBaseBits
      dsimp only
      rw [readBits_ok hbase h.size_le (by
        show layout.slots.rowStart slotIndex + layout.slotBaseBits ≤ 8 * size
        omega)]
      rw [if_neg (not_not.mpr rfl), if_pos rfl]
      exact stops_call_finish (stops_pureLoop env target h.size_le _ _ _ _ _ hrow)

/-- The parts of a register are events. -/
theorem stops_emitSubSlots (reg : Nat) : ∀ remaining subSlot s,
    Stops (emitSubSlots target reg remaining subSlot s) := by
  intro remaining
  induction remaining with
  | zero =>
    intro subSlot s
    exact stops_ok s
  | succ remaining ih =>
    intro subSlot s
    exact (stops_emitOne _ s _).bind fun s => ih _ s

/-- The registers of a bitmap are events. -/
theorem stops_emitRegs : ∀ remaining bitMap bit s,
    Stops (emitRegs arch target remaining bitMap bit s) := by
  intro remaining
  induction remaining with
  | zero =>
    intro bitMap bit s
    exact stops_ok s
  | succ remaining ih =>
    intro bitMap bit s
    refine stops_ite (fun _ => stops_ok s) fun _ => stops_ite (fun _ => ?_) fun _ => ?_
    · refine (stops_emitSubSlots target _ _ _ s).bind fun s => stops_ite (fun _ => ?_) fun _ => ?_
      · exact (stops_ok _).bind fun s => ih _ _ s
      · exact (stops_ok s).bind fun s => ih _ _ s
    · exact (stops_ok s).bind fun s => ih _ _ s

/-- The register roots of a layout inside the data: a row that exists is read. -/
theorem stops_decodeRegRoots (h : Inside size layout) (regIndex : Nat) (events : Events)
    (start : Nat) :
    Stops (call (decodeRegRoots data size arch target layout regIndex events start)) := by
  rw [decodeRegRoots]
  split
  case isTrue => exact stops_ok _
  case isFalse =>
    dsimp only
    rcases @readTableRow_cases data size _ _ _ regIndex h.regs h.size_le h.regBits with
      ⟨hok, -⟩ | ⟨hmalformed, -⟩
    · rw [if_neg (not_not.mpr hok)]
      exact stops_call_finish (stops_emitRegs arch target _ _ _ _)
    · rw [if_pos (by rw [hmalformed]; decide)]
      exact stops_call_error hmalformed

/-- The derived roots: every base that is counted has a row, and the row is read. -/
theorem stops_derivedLoop (h : Inside size layout) (pc capacity : Nat) {derivedIndex : Nat}
    (hpos : 0 < derivedIndex) : ∀ remaining baseOrdinal s,
    derivedIndex - 1 + baseOrdinal + remaining ≤ layout.derivedRecords →
      Stops (derivedLoop data size arch layout PURE_COMPRESSED_STACKMAP pc capacity derivedIndex
        remaining baseOrdinal s) := by
  intro remaining
  induction remaining with
  | zero =>
    intro baseOrdinal s hle
    exact stops_ok s
  | succ remaining ih =>
    intro baseOrdinal s hle
    obtain ⟨hoffset, hin⟩ := h.derivedRow hpos (show derivedIndex - 1 + baseOrdinal <
      layout.derivedRecords by omega)
    rw [derivedLoop, hoffset, check_readBits h.regIndexBits h.size_le (by omega)]
    dsimp only [Emitted.read, bind, Except.bind]
    rw [check_readBits h.slotIndexBits h.size_le (by omega)]
    refine (stops_decodeRegRoots arch _ h _ _ _).bind fun s => ?_
    exact (stops_decodeSlotRoots arch.toEnv _ h _ _ _).bind fun s => ih _ s (by omega)

/-- The derived roots of a row, with the check that makes all its bases have rows. -/
theorem stops_decodeDerived (h : Inside size layout) (pc capacity derivedIndex baseRoots : Nat)
    (events : Events) (start : Nat) :
    Stops (call (decodeDerived data size arch layout PURE_COMPRESSED_STACKMAP pc capacity
      derivedIndex baseRoots events start)) := by
  rw [decodeDerived]
  split
  case isTrue => exact stops_ok _
  case isFalse hsome =>
    split
    case isTrue => exact stops_call_error rfl
    case isFalse hrows =>
      have hrecords := h.derivedRecords
      have hle : derivedIndex ≤ layout.derivedRecords := by omega
      have hroom : baseRoots ≤ layout.derivedRecords - derivedIndex + 1 := by
        have := not_or.mp hrows
        rw [Words.sub_eq hle hrecords] at this
        by_cases hwrap : layout.derivedRecords - derivedIndex + 1 < 2 ^ 32
        · rw [Words.add_eq hwrap] at this
          omega
        · omega
      exact stops_call_finish (stops_derivedLoop arch h pc capacity (by omega) _ _ _ (by omega))

/-- A row of a layout inside the data, with the roots of every kind. -/
theorem stops_decodeRow (h : Inside size layout) (pc capacity : Nat) (indices : IndexSet)
    (s : Emitted) : Stops (decodeRow data size arch layout PURE_COMPRESSED_STACKMAP pc capacity
      indices s) := by
  have hline : Stops (if indices.line ≠ 0 then do
      let lineResult ← s.read (readTableRow data size layout.lineData layout.lineRecords
        layout.lineBits indices.line).check
      return lineResult.value
    else return 0 : Except Stop Nat) := by
    refine stops_ite (fun _ => (stops_read fun code heq => ?_).bind fun r => stops_ok _)
      fun _ => stops_ok _
    rw [WordResult.check] at heq
    rcases @readTableRow_cases data size _ _ _ indices.line h.lines h.size_le h.lineBits with
      ⟨hok, -⟩ | ⟨hmalformed, -⟩
    · rw [if_neg (not_not.mpr hok)] at heq
      cases heq
    · rw [if_pos (by rw [hmalformed]; decide)] at heq
      cases heq
      exact hmalformed
  refine hline.bind fun lineNumber => (stops_emitOne _ s _).bind fun s => ?_
  refine (stops_decodeRegRoots arch _ h _ _ _).bind fun regs => ?_
  refine (stops_decodeSlotRoots arch.toEnv _ h _ _ _).bind fun slots => ?_
  refine (stops_decodeDerived arch h pc capacity _ _ _ _).bind fun derived => ?_
  refine (stops_decodeRegRoots arch _ h _ _ _).bind fun stackRegs => ?_
  exact stops_decodeSlotRoots arch.toEnv _ h _ _ _

/-- The rows of a layout with plain bitmaps. -/
theorem decodeRows_stops (h : Inside size layout) (capacity : Nat) : ∀ remaining row s,
    row + remaining ≤ layout.stackMapRecords →
      Stops (decodeRows data size arch layout PURE_COMPRESSED_STACKMAP capacity remaining row s) := by
  intro remaining
  induction remaining with
  | zero =>
    intro row s hle
    exact stops_ok s
  | succ remaining ih =>
    intro row s hle
    obtain ⟨r, hr⟩ := @Inside.readIndexSet data size layout h row (by omega)
    rw [decodeRows, hr]
    refine stops_ite (fun _ => (stops_ok s).bind fun s => ih _ s (by omega)) fun _ => ?_
    exact (stops_decodeRow arch h _ capacity _ s).bind fun s => ih _ s (by omega)

end Stops

/-! ## Untrusted data -/

section Untrusted

variable {data : Nat → UInt8} {size : Nat} {layout : Layout}

/-- The rows of a table: their offsets do not wrap, and every row is read. -/
def RowsRead (data : Nat → UInt8) (size start rows rowBits : Nat) : Prop :=
  ∀ index, 0 < index → index ≤ rows →
    Words.add 64 start (Words.mul 64 (index - 1) rowBits) = start + (index - 1) * rowBits ∧
      (readTableRow data size start rows rowBits index).code = STACKMAP_OK

/-- What a decoder with this layout may rely on. -/
structure Readable (data : Nat → UInt8) (size : Nat) (layout : Layout) : Prop where
  rows : ∀ row < layout.stackMapRecords,
    Words.add 64 layout.stackMapData (Words.mul 64 row layout.stackMapRowBits) =
      layout.stackMapData + row * layout.stackMapRowBits ∧
    ∃ r, readIndexSet data size layout row = .ok r
  regs : RowsRead data size layout.regData layout.regRecords layout.regBits
  lines : RowsRead data size layout.lineData layout.lineRecords layout.lineBits
  slots : ∀ slotIndex, 0 < slotIndex → slotIndex ≤ layout.slotRecords →
    layout.slots.rowStart slotIndex = layout.slotData +
      (slotIndex - 1) * (layout.slotBaseBits + layout.slotBitmapBits) ∧
    (readBits data size (layout.slots.rowStart slotIndex) layout.slotBaseBits).code = STACKMAP_OK ∧
    ∀ before chunkBits, chunkBits ≤ 32 → before + chunkBits ≤ layout.slotBitmapBits →
      (readBits data size (layout.slots.rowStart slotIndex + layout.slotBaseBits + before)
        chunkBits).code = STACKMAP_OK
  derived : ∀ derivedIndex baseOrdinal, 0 < derivedIndex →
    derivedIndex - 1 + baseOrdinal < layout.derivedRecords →
    ∃ cursor, Words.add 64 layout.derivedData (Words.mul 64
        (Words.add 64 (derivedIndex - 1) baseOrdinal)
        (Words.add 32 layout.regIndexBits layout.slotIndexBits)) = cursor ∧
      cursor = layout.derivedData + (derivedIndex - 1 + baseOrdinal) *
        (layout.regIndexBits + layout.slotIndexBits) ∧
      (readBits data size cursor layout.regIndexBits).code = STACKMAP_OK ∧
      (readBits data size (cursor + layout.regIndexBits) layout.slotIndexBits).code = STACKMAP_OK

/-- The rows of a table inside the data are all read. -/
theorem TableIn.rowsRead {start rows rowBits : Nat} (h : TableIn size start rows rowBits)
    (hsize : size ≤ MAX_SIZE) (hbits : rowBits ≤ 32) : RowsRead data size start rows rowBits := by
  intro index hpos hle
  refine ⟨(@TableIn.row size _ _ _ (index - 1) h hsize (by omega)).2, ?_⟩
  rcases @readTableRow_cases data size _ _ _ index h hsize hbits with ⟨hok, -⟩ | ⟨-, hlarge⟩
  · exact hok
  · omega

/-- The tables of a layout inside the data are read wherever an index points. -/
theorem Inside.readable (h : Inside size layout) : Readable data size layout := by
  have hsize := h.size_le
  refine ⟨fun row hrow => ⟨(h.rows.row hsize hrow).2, h.readIndexSet hrow⟩,
    h.regs.rowsRead hsize h.regBits, h.lines.rowsRead hsize h.lineBits,
    fun slotIndex hpos hle => ?_, fun derivedIndex baseOrdinal hpos hlt => ?_⟩
  · obtain ⟨hstart, hin⟩ := h.slotRow hpos hle
    refine ⟨hstart, ?_, fun before chunkBits hchunk hbefore => ?_⟩
    · rw [readBits_ok h.slotBaseBits hsize (by omega)]
    · rw [readBits_ok hchunk hsize (by omega)]
  · obtain ⟨hoffset, hin⟩ := h.derivedRow hpos hlt
    refine ⟨_, rfl, hoffset, ?_, ?_⟩
    · rw [hoffset, readBits_ok h.regIndexBits hsize (by omega)]
    · rw [hoffset, readBits_ok h.slotIndexBits hsize (by omega)]

/-- The run up to the rows: the format, the layout, and what was emitted. -/
def decodeHead (data : Nat → UInt8) (size capacity : Nat) (stackGrow : Bool) (s : Emitted) :
    Except Stop (Nat × Layout × Emitted) := do
  let stackSize ← s.read (readVarInt data size 0).check
  let format ← s.read (readVarInt data size stackSize.nextBit).check
  let s ← emitOne capacity s
    ⟨STACKMAP_EVENT_HEADER, 0, BitVec.ofNat 64 stackSize.value, BitVec.ofNat 64 format.value⟩
  let prologueMap ← s.read (readVarInt data size format.nextBit).check
  let (prologueCursor, s) ←
    prologueLoop data size capacity prologueMap.value 0 prologueMap.nextBit s
  let layout ← s.read (parseLayout data size prologueCursor stackGrow)
  return (format.value, layout, s)

/-- A run decodes the rows after its head. -/
theorem decodeBody_eq (arch : Arch) (capacity : Nat) (stackGrow : Bool) (s : Emitted) :
    decodeBody data size arch capacity stackGrow s =
      (decodeHead data size capacity stackGrow s >>= fun head =>
        decodeRows data size arch head.2.1 head.1 capacity head.2.1.stackMapRecords 0 head.2.2) := by
  simp only [decodeBody, decodeHead, bind_assoc, pure_bind]

/-- A read that did not stop the decoder has its result. -/
theorem read_eq_ok {α : Type} {s : Emitted} {a : Except Nat α} {x : α} (h : s.read a = .ok x) :
    a = .ok x := by
  cases a with
  | error code => cases h
  | ok y =>
    cases h
    rfl

/-- The layout of a head was parsed. -/
theorem decodeHead_layout {capacity format : Nat} {stackGrow : Bool} {s s' : Emitted}
    (h : decodeHead data size capacity stackGrow s = .ok (format, layout, s')) :
    ∃ bitStart, parseLayout data size bitStart stackGrow = .ok layout := by
  obtain ⟨stackSize, -, h⟩ := bind_eq_ok h
  obtain ⟨format', -, h⟩ := bind_eq_ok h
  obtain ⟨s1, -, h⟩ := bind_eq_ok h
  obtain ⟨prologueMap, -, h⟩ := bind_eq_ok h
  obtain ⟨⟨cursor, s2⟩, -, h⟩ := bind_eq_ok h
  obtain ⟨layout', hlayout, h⟩ := bind_eq_ok h
  cases h
  exact ⟨cursor, read_eq_ok hlayout⟩

/-- The rows of a layout that was parsed, with plain bitmaps. -/
theorem parseLayout_stops {bitStart : Nat} {stackGrow : Bool}
    (h : parseLayout data size bitStart stackGrow = .ok layout) (arch : Arch) (capacity : Nat)
    (s : Emitted) : Stops (decodeRows data size arch layout PURE_COMPRESSED_STACKMAP capacity
      layout.stackMapRecords 0 s) := by
  rcases parseLayout_inside h with hnone | hinside
  · rw [hnone]
    exact stops_ok s
  · exact decodeRows_stops arch hinside capacity _ 0 s (by omega)

/-- **A run with plain bitmaps is never cut short after its head.**  All reads behind the head are
    inside the tables that the head was checked for; so none is truncated. -/
theorem stackMapDecode_code {arch : Arch} {capacity flag count : Nat} {events : Events}
    {s : Emitted} (h : decodeHead data size capacity (flag = 1) ⟨events, 0, 0⟩ =
      .ok (PURE_COMPRESSED_STACKMAP, layout, s)) (hflag : flag = 0 ∨ flag = 1) :
    (stackMapDecode data size arch capacity flag events count).code ∈
      [STACKMAP_OK, STACKMAP_MALFORMED, STACKMAP_NO_SPACE] := by
  obtain ⟨bitStart, hlayout⟩ := decodeHead_layout h
  have hstops := parseLayout_stops hlayout arch capacity s
  have hrun : decodeBody data size arch capacity (flag = 1) ⟨events, 0, 0⟩ =
      decodeRows data size arch layout PURE_COMPRESSED_STACKMAP capacity
        layout.stackMapRecords 0 s := by
    rw [decodeBody_eq, h]
    rfl
  rw [stackMapDecode, if_neg (by omega), hrun]
  cases hrows : decodeRows data size arch layout PURE_COMPRESSED_STACKMAP capacity
      layout.stackMapRecords 0 s with
  | ok s' => exact List.mem_cons_self
  | error stop =>
    rcases hstops stop hrows with hcode | hcode
    · exact List.mem_cons_of_mem _ (List.mem_cons.mpr (Or.inl hcode))
    · exact List.mem_cons_of_mem _ (List.mem_cons_of_mem _ (List.mem_singleton.mpr hcode))

/-- **Decoding untrusted bytes is in bounds.**  No run reads a byte behind the data, nor depends on
    one.  A cursor that was read stays in the data, and neither the size of a table nor its end wraps.
    Once a layout was parsed, every row is where it should be and is read; so a run with plain bitmaps
    ends well, as malformed, or for want of room. -/
theorem stackMapDecode_inBounds (data : Nat → UInt8) (size : Nat) :
    (∀ arch capacity flag events count,
      (stackMapDecode data size arch capacity flag events count).code ≠ FAULT) ∧
    (∀ bit bitLen, (readBits data size bit bitLen).code ≠ FAULT) ∧
    (∀ data', SameData size data data' → ∀ arch capacity flag events count,
      stackMapDecode data size arch capacity flag events count =
        stackMapDecode data' size arch capacity flag events count) ∧
    (∀ bit bitLen, (readBits data size bit bitLen).code = STACKMAP_OK →
      (readBits data size bit bitLen).nextBit = bit + bitLen ∧ bit + bitLen ≤ 8 * size ∧
        8 * size < 2 ^ 64) ∧
    (∀ bit, (readVarInt data size bit).code = STACKMAP_OK →
      bit < (readVarInt data size bit).nextBit ∧ (readVarInt data size bit).nextBit ≤ 8 * size) ∧
    (∀ start rows rowBits, rows < 2 ^ 32 → rowBits < 2 ^ 32 →
      Words.mul 64 rows rowBits = rows * rowBits ∧
      ((checkedEnd start rows rowBits size).code = STACKMAP_OK →
        (checkedEnd start rows rowBits size).nextBit = start + rows * rowBits ∧
          start + rows * rowBits ≤ 8 * size)) ∧
    (∀ bitStart stackGrow layout, parseLayout data size bitStart stackGrow = .ok layout →
      layout.stackMapRecords = 0 ∨ Readable data size layout) ∧
    ∀ arch capacity flag events count layout s, flag = 0 ∨ flag = 1 →
      decodeHead data size capacity (flag = 1) ⟨events, 0, 0⟩ =
        .ok (PURE_COMPRESSED_STACKMAP, layout, s) →
      (stackMapDecode data size arch capacity flag events count).code ∈
        [STACKMAP_OK, STACKMAP_MALFORMED, STACKMAP_NO_SPACE] := by
  refine ⟨stackMapDecode_noFault data size, readBits_noFault data size,
    fun data' h arch capacity flag events count => ?_, fun bit bitLen hok => ?_, fun bit hok => ?_,
    fun start rows rowBits hrows hrowBits => ⟨?_, fun hok => ?_⟩,
    fun bitStart stackGrow layout hlayout => ?_,
    fun arch capacity flag events count layout s hflag hhead => stackMapDecode_code hhead hflag⟩
  · simp only [stackMapDecode, decodeBody_congr arch capacity h]
  · obtain ⟨hlen, hsize, hin⟩ := readBits_of_ok hok
    have hmax : size ≤ 0x1fffffffffffffff := hsize
    exact ⟨by rw [readBits_ok hlen hsize hin], hin, by omega⟩
  · have hcheck : (readVarInt data size bit).check = .ok (readVarInt data size bit) := by
      rw [WordResult.check, if_neg (not_not.mpr hok)]
    obtain ⟨-, -, hlt, hle⟩ := check_readVarInt hcheck
    exact ⟨hlt, hle⟩
  · refine Words.mul_eq ?_
    have := Nat.mul_lt_mul'' hrows hrowBits
    omega
  · obtain ⟨-, hin, hnext⟩ := checkedEnd_of_ok hrows hrowBits hok
    exact ⟨hnext, hin⟩
  · exact (parseLayout_inside hlayout).imp_right Inside.readable

/-- Two bytes without rows: what is behind them does not matter. -/
theorem stackMapDecode_inBounds_no_rows :
    (∀ arch capacity flag events count, stackMapDecode (fun _ => 0) 2 arch capacity flag events count =
        stackMapDecode (fun p => if p < 2 then 0 else 1) 2 arch capacity flag events count) ∧
      (readBits (fun _ => 0) 2 0 4).nextBit = 4 ∧
      ∀ arch count, (stackMapDecode (fun _ => 0) 2 arch 1 0 none count).code ∈
        [STACKMAP_OK, STACKMAP_MALFORMED, STACKMAP_NO_SPACE] := by
  obtain ⟨-, -, hsame, hread, -, -, -, hcode⟩ := stackMapDecode_inBounds (fun _ => 0) 2
  refine ⟨hsame _ fun p hp => (if_pos hp).symm, (hread 0 4 (by decide)).1, fun arch count =>
    hcode arch 1 0 none count {} ⟨none, 1, 0⟩ (Or.inl rfl) ?_⟩
  have hloop : ∀ cursor s, prologueLoop (fun _ => 0) 2 1 0 0 cursor s = .ok (cursor, s) :=
    fun cursor s => by rw [prologueLoop, dif_pos rfl]
  show (prologueLoop (fun _ => 0) 2 1 0 0 12 ⟨none, 1, 0⟩ >>= _) = _
  rw [hloop]
  rfl

end Untrusted

end CangjieRuntime.Stackmap
