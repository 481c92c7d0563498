/-
  The variable-length integers of stack maps, and their two readers.

  A value starts with a nibble: up to 11 it is the value itself, from 12 on it says whether 8, 16,
  24 or 32 payload bits follow.  `readVarInt` puts it together bit by bit; the unwinder's
  `ReadEHFrameVarInt` (`rt.exception/EhFramePrimitives.cj`) loads a word at the byte the payload
  starts in, shifts it and masks it.

  A payload that starts in the middle of a byte is shifted by 4, so that of a load of 32 bits only
  28 are left: on such a target a 32-bit payload loses its highest nibble (`CutOff`), and this is
  the only difference between the two (`varInt_readers_agree`).
-/
import CangjieRuntime.Stackmap.StackMap

set_option linter.unusedVariables false

namespace CangjieRuntime.Stackmap

open BitField

/-! ## The format -/

section Format

variable (data : Nat → UInt8)

/-- The tag of the value at `bit`. -/
def varTag (bit : Nat) : Nat := field data bit 4

/-- The value at `bit`. -/
def varValue (bit : Nat) : Nat :=
  if varTag data bit ≤ 11 then varTag data bit
  else field data (bit + 4) (payloadBits (varTag data bit))

/-- Where the value at `bit` ends. -/
def varEnd (bit : Nat) : Nat :=
  if varTag data bit ≤ 11 then bit + 4 else bit + 4 + payloadBits (varTag data bit)

/-- Where the `k`-th of the adjacent values from `bit` on starts. -/
def varStart (bit : Nat) : Nat → Nat
  | 0 => bit
  | k + 1 => varEnd data (varStart bit k)

end Format

variable {data : Nat → UInt8} {size bit : Nat}

/-- A payload has at most three bytes, or all four. -/
theorem payloadBits_cases (tag : Nat) : payloadBits tag ≤ 24 ∨ payloadBits tag = 32 := by
  unfold payloadBits
  split
  · exact Or.inl (by decide)
  · split
    · exact Or.inl (by decide)
    · split
      · exact Or.inl (by decide)
      · exact Or.inr rfl

/-- It never has more than 32 bits. -/
theorem payloadBits_le (tag : Nat) : payloadBits tag ≤ 32 := by
  have := payloadBits_cases tag
  omega

/-- A number ends behind its tag. -/
theorem lt_varEnd (data : Nat → UInt8) (bit : Nat) : bit + 4 ≤ varEnd data bit := by
  unfold varEnd
  split
  · exact Nat.le_refl _
  · exact Nat.le_add_right _ _

/-- Its value has 32 bits. -/
theorem varValue_lt (data : Nat → UInt8) (bit : Nat) : varValue data bit < 2 ^ 32 := by
  have hpow : 2 ^ payloadBits (varTag data bit) ≤ 2 ^ 32 :=
    Nat.pow_le_pow_right (by decide) (payloadBits_le _)
  have hfield := field_lt data (bit + 4) (payloadBits (varTag data bit))
  unfold varValue
  split <;> omega

/-- Later numbers start later. -/
theorem varStart_mono (data : Nat → UInt8) (bit : Nat) {k n : Nat} (h : k ≤ n) :
    varStart data bit k ≤ varStart data bit n := by
  induction n with
  | zero =>
    obtain rfl := Nat.le_zero.mp h
    exact Nat.le_refl _
  | succ n ih =>
    rcases Nat.eq_or_lt_of_le h with rfl | hlt
    · exact Nat.le_refl _
    · have hend := lt_varEnd data (varStart data bit n)
      have hle := ih (by omega)
      rw [varStart]
      omega

/-! ## `readBits` -/

/-- One bit, as the loop reads it. -/
theorem oneBit_eq (data : Nat → UInt8) (absolute : Nat) :
    ((data (absolute >>> 3)).toNat >>> (absolute &&& 7)) &&& 1 = (bitAt data absolute).toNat := by
  have hmod : absolute &&& 7 = absolute % 8 := Nat.and_two_pow_sub_one_eq_mod absolute 3
  have hdiv : absolute >>> 3 = absolute / 8 := Nat.shiftRight_eq_div_pow absolute 3
  have hbit := byte_shift_mod data (absolute / 8) (absolute % 8) 1 (by omega)
  rw [Nat.div_add_mod, Nat.pow_one] at hbit
  rw [hmod, hdiv, Nat.and_one_is_mod, hbit]
  simp only [field, Nat.pow_zero, Nat.one_mul, Nat.zero_add, Nat.add_zero]

/-- **The loop of `readBits`** extends a field to a longer one, and reads inside the data. -/
theorem readBitsLoop_eq (data : Nat → UInt8) {size : Nat} (hsize : size ≤ MAX_SIZE) (bit : Nat) :
    ∀ remaining i, i + remaining ≤ 32 → bit + i + remaining ≤ 8 * size →
    readBitsLoop data size bit remaining i (field data bit i) =
      some (field data bit (i + remaining)) := by
  have hmax : size ≤ 0x1fffffffffffffff := hsize
  intro remaining
  induction remaining with
  | zero =>
    intro i hlen hbit
    rfl
  | succ remaining ih =>
    intro i hlen hbit
    have hone : (bitAt data (bit + i)).toNat ≤ 1 := Bool.toNat_le _
    have hpow : 2 ^ i ≤ 2 ^ 31 := Nat.pow_le_pow_right (by decide) (by omega)
    have hshl : Words.shl 32 (bitAt data (bit + i)).toNat i =
        2 ^ i * (bitAt data (bit + i)).toNat := by
      have hmul := Nat.mul_le_mul_left (2 ^ i) hone
      rw [Words.shl, Nat.mod_eq_of_lt (show i < 32 by omega), Nat.shiftLeft_eq, Nat.mul_comm,
        Nat.mod_eq_of_lt (by omega)]
    have hor : field data bit i ||| 2 ^ i * (bitAt data (bit + i)).toNat =
        field data bit (i + 1) := by
      rw [Nat.or_comm, ← Nat.two_pow_add_eq_or_of_lt (field_lt data bit i), Nat.add_comm, field]
    have hbyte : readByte data size ((bit + i) >>> 3) = some (data ((bit + i) >>> 3)) := by
      refine if_pos ?_
      rw [Nat.shiftRight_eq_div_pow]
      omega
    rw [readBitsLoop, Words.add_eq (show bit + i < 2 ^ 64 by omega)]
    dsimp only
    rw [hbyte]
    dsimp only [bind, Option.bind]
    rw [oneBit_eq, hshl, hor, ih (i + 1) (by omega) (by omega)]
    congr 2
    omega

/-- **`readBits`**, whatever the arguments: it never faults. -/
theorem readBits_eq (data : Nat → UInt8) (size bit bitLen : Nat) :
    readBits data size bit bitLen =
      if bitLen > 32 ∨ size > MAX_SIZE then ⟨STACKMAP_MALFORMED, 0, bit⟩
      else if bit + bitLen > 8 * size then ⟨STACKMAP_TRUNCATED, 0, bit⟩
      else ⟨STACKMAP_OK, field data bit bitLen, bit + bitLen⟩ := by
  rw [readBits]
  refine ite_congr rfl (fun _ => rfl) fun hfits => ?_
  have hsize : size ≤ MAX_SIZE := by omega
  have hmax : size ≤ 0x1fffffffffffffff := hsize
  have htotal : Words.mul 64 size 8 = 8 * size := by
    rw [Words.mul_eq (by omega), Nat.mul_comm]
  have houtside : (bit > 8 * size ∨ bitLen > Words.sub 64 (8 * size) bit) ↔
      bit + bitLen > 8 * size := by
    rcases Nat.lt_or_ge (8 * size) bit with hlt | hle
    · exact iff_of_true (Or.inl hlt) (by omega)
    · rw [Words.sub_eq hle (by omega)]
      omega
  dsimp only
  rw [htotal]
  refine ite_congr (propext houtside) (fun _ => rfl) fun hin => ?_
  have hvalue : readBitsLoop data size bit bitLen 0 0 = some (field data bit bitLen) := by
    have hloop := readBitsLoop_eq data hsize bit bitLen 0 (by omega) (by omega)
    rwa [Nat.zero_add] at hloop
  rw [hvalue, Words.add_eq (by omega)]

/-- **`readBits` inside the data.** -/
theorem readBits_ok {bitLen : Nat} (hlen : bitLen ≤ 32) (hsize : size ≤ MAX_SIZE)
    (hin : bit + bitLen ≤ 8 * size) :
    readBits data size bit bitLen = ⟨STACKMAP_OK, field data bit bitLen, bit + bitLen⟩ := by
  rw [readBits_eq, if_neg (by omega), if_neg (by omega)]

/-- A read without an error is inside the data. -/
theorem readBits_of_ok {bitLen : Nat} (h : (readBits data size bit bitLen).code = STACKMAP_OK) :
    bitLen ≤ 32 ∧ size ≤ MAX_SIZE ∧ bit + bitLen ≤ 8 * size := by
  rw [readBits_eq] at h
  split at h
  case isTrue => simp at h
  case isFalse hfits =>
    split at h
    case isTrue => simp at h
    case isFalse hin => exact ⟨by omega, by omega, by omega⟩

/-! ## `readVarInt` -/

/-- **`readVarInt` inside the data.** -/
theorem readVarInt_ok (hsize : size ≤ MAX_SIZE) (hin : varEnd data bit ≤ 8 * size) :
    readVarInt data size bit = ⟨STACKMAP_OK, varValue data bit, varEnd data bit⟩ := by
  have hstart := lt_varEnd data bit
  have htag : readBits data size bit 4 = ⟨STACKMAP_OK, varTag data bit, bit + 4⟩ :=
    readBits_ok (by decide) hsize (by omega)
  simp only [readVarInt, htag, ne_eq, not_true_eq_false, if_false, varValue, varEnd]
  by_cases hinline : varTag data bit ≤ 11
  · simp only [if_pos hinline]
  · rw [varEnd, if_neg hinline] at hin
    simp only [if_neg hinline]
    exact readBits_ok (payloadBits_le _) hsize hin

/-- A read that succeeds was within the data. -/
theorem readVarInt_of_ok (h : (readVarInt data size bit).code = STACKMAP_OK) :
    size ≤ MAX_SIZE ∧ varEnd data bit ≤ 8 * size := by
  by_cases htag : (readBits data size bit 4).code = STACKMAP_OK
  · obtain ⟨hlen, hsize, hin⟩ := readBits_of_ok htag
    have hread : readBits data size bit 4 = ⟨STACKMAP_OK, varTag data bit, bit + 4⟩ :=
      readBits_ok hlen hsize hin
    refine ⟨hsize, ?_⟩
    simp only [readVarInt, hread, ne_eq, not_true_eq_false, if_false] at h
    rw [varEnd]
    split
    case isTrue => exact hin
    case isFalse hinline =>
      rw [if_neg hinline] at h
      exact (readBits_of_ok h).2.2
  · rw [readVarInt] at h
    simp only [ne_eq, htag, not_false_eq_true, if_true] at h

/-! ## `ReadEHFrameVarInt` -/

/-- `ReadEHFrameVarInt`, on a target with loads of 32 bits (`arm`) or of 64: the value, and what it
    leaves in `point` and `validPos`. -/
def readEHFrameVarInt (arm : Bool) (data : Nat → UInt8) (p pos : Nat) : Nat × Nat × Nat :=
  let tag := ((data p).toNat >>> ((pos &&& 1) <<< 2)) &&& 0x0f
  let (p, pos) := if pos = 1 then (p + 1, 0) else (p, 1)
  if tag ≤ 11 then (tag, p, pos)
  else
    let bitsLen := if tag = 12 then 8 else if tag = 13 then 16 else if tag = 14 then 24 else 32
    let bitsMask := if bitsLen = 32 then 0xffffffff else (1 <<< bitsLen) - 1
    let word := load data p (if arm then 4 else 8)
    let value := (word >>> ((pos &&& 1) <<< 2)) % 2 ^ 32 &&& bitsMask
    (value, p + bitsLen >>> 3, pos)

/-- The value at `bit` is one the load of 32 bits cuts off: a 32-bit payload in the middle of a byte,
    with a highest nibble that is not 0. -/
def CutOff (arm : Bool) (data : Nat → UInt8) (bit : Nat) : Prop :=
  arm = true ∧ bit % 8 = 0 ∧ varTag data bit = 15 ∧ field data (bit + 32) 4 ≠ 0

/-- A tag has four bits. -/
theorem varTag_lt (data : Nat → UInt8) (bit : Nat) : varTag data bit < 16 := field_lt data bit 4

/-- The mask keeps the low bits. -/
theorem and_bitsMask (x : Nat) {len : Nat} (hlen : len ≤ 32) :
    x % 2 ^ 32 &&& (if len = 32 then 0xffffffff else (1 <<< len) - 1) = x % 2 ^ len := by
  split
  case isTrue h =>
    subst h
    exact (Nat.and_two_pow_sub_one_eq_mod _ 32).trans (Nat.mod_mod _ _)
  case isFalse h =>
    rw [Nat.shiftLeft_eq, Nat.one_mul, Nat.and_two_pow_sub_one_eq_mod]
    exact Nat.mod_mod_of_dvd x (Nat.pow_dvd_pow 2 hlen)

/-- What the masked load reads of the payload. -/
theorem load_payload (arm : Bool) (data : Nat → UInt8) (p : Nat) {pos len : Nat} (hpos : pos ≤ 1)
    (hlen : len ≤ 24 ∨ len = 32) : (load data p (if arm then 4 else 8) >>> (4 * pos)) % 2 ^ len =
      field data (8 * p + 4 * pos) (if arm = true ∧ pos = 1 ∧ len = 32 then 28 else len) := by
  by_cases hcut : arm = true ∧ pos = 1 ∧ len = 32
  · obtain ⟨rfl, rfl, rfl⟩ := hcut
    have hlow := load_shift_mod data p 4 4 28 (by decide)
    have hword : load data p 4 < 2 ^ 32 := load_lt data p 4
    have hshift : load data p 4 >>> 4 < 2 ^ 28 := by
      rw [Nat.shiftRight_eq_div_pow]
      omega
    rw [Nat.mod_eq_of_lt hshift] at hlow
    rw [if_pos rfl, if_pos ⟨rfl, rfl, rfl⟩, Nat.mul_one, Nat.mod_eq_of_lt (by omega), hlow]
  · rw [if_neg hcut]
    refine load_shift_mod data p _ _ len ?_
    cases arm with
    | false =>
      simp only [Bool.false_eq_true, if_false]
      omega
    | true =>
      simp only [if_true, true_and] at hcut ⊢
      omega

/-- The bit a nibble starts at in its byte. -/
theorem nibble_shift {pos : Nat} (hpos : pos ≤ 1) : (pos &&& 1) <<< 2 = 4 * pos := by
  rw [Nat.and_one_is_mod, Nat.shiftLeft_eq]
  omega

/-- **`ReadEHFrameVarInt`** ends where the value ends, and reads the value, or what the load leaves
    of it. -/
theorem readEHFrameVarInt_spec (arm : Bool) (data : Nat → UInt8) {p pos : Nat} (hpos : pos ≤ 1) :
    ∃ value p' pos', readEHFrameVarInt arm data p pos = (value, p', pos') ∧ pos' ≤ 1 ∧
      8 * p' + 4 * pos' = varEnd data (8 * p + 4 * pos) ∧
      (value = varValue data (8 * p + 4 * pos) ↔ ¬ CutOff arm data (8 * p + 4 * pos)) := by
  have htag : ((data p).toNat >>> ((pos &&& 1) <<< 2)) &&& 0x0f =
      varTag data (8 * p + 4 * pos) := by
    rw [nibble_shift hpos, varTag, ← byte_shift_mod data p (4 * pos) 4 (by omega)]
    exact Nat.and_two_pow_sub_one_eq_mod _ 4
  obtain ⟨p₁, pos₁, hstep, hpos₁, hbit⟩ : ∃ p₁ pos₁,
      (if pos = 1 then (p + 1, 0) else (p, 1)) = (p₁, pos₁) ∧ pos₁ ≤ 1 ∧
        8 * p₁ + 4 * pos₁ = 8 * p + 4 * pos + 4 := by
    split
    case isTrue h => exact ⟨_, _, rfl, by decide, by omega⟩
    case isFalse h => exact ⟨_, _, rfl, by decide, by omega⟩
  have hlt := varTag_lt data (8 * p + 4 * pos)
  simp only [readEHFrameVarInt, htag, hstep]
  -- a value in the tag, or one behind it
  by_cases hinline : varTag data (8 * p + 4 * pos) ≤ 11
  · rw [if_pos hinline]
    refine ⟨_, _, _, rfl, hpos₁, ?_, ?_⟩
    · rw [varEnd, if_pos hinline, hbit]
    · rw [varValue, if_pos hinline]
      exact ⟨fun _ hcut => by rw [hcut.2.2.1] at hinline; omega, fun _ => rfl⟩
  · have hlen := payloadBits_le (varTag data (8 * p + 4 * pos))
    rw [if_neg hinline, show (if varTag data (8 * p + 4 * pos) = 12 then 8
      else if varTag data (8 * p + 4 * pos) = 13 then 16
      else if varTag data (8 * p + 4 * pos) = 14 then 24 else 32) =
        payloadBits (varTag data (8 * p + 4 * pos)) from rfl, nibble_shift hpos₁,
      and_bitsMask _ hlen, load_payload arm data p₁ hpos₁ (payloadBits_cases _), hbit]
    refine ⟨_, _, _, rfl, hpos₁, ?_, ?_⟩
    · have hbytes : 8 * (payloadBits (varTag data (8 * p + 4 * pos)) >>> 3) =
          payloadBits (varTag data (8 * p + 4 * pos)) := by
        unfold payloadBits
        split
        · rfl
        · split
          · rfl
          · split <;> rfl
      rw [varEnd, if_neg hinline]
      omega
    · rw [varValue, if_neg hinline]
      by_cases hcut : arm = true ∧ pos₁ = 1 ∧ payloadBits (varTag data (8 * p + 4 * pos)) = 32
      · -- the load leaves 28 of the 32 bits
        obtain ⟨harm, hodd, hwide⟩ := hcut
        have hwideTag : varTag data (8 * p + 4 * pos) = 15 := by
          unfold payloadBits at hwide
          split at hwide
          · cases hwide
          · split at hwide
            · cases hwide
            · split at hwide
              · cases hwide
              · omega
        have hadd := field_add data (8 * p + 4 * pos + 4) 28 4
        have hnext : 8 * p + 4 * pos + 4 + 28 = 8 * p + 4 * pos + 32 := by omega
        rw [hnext] at hadd
        rw [if_pos ⟨harm, hodd, hwide⟩, hwide, hadd]
        constructor
        · intro heq hcut
          have := hcut.2.2.2
          omega
        · intro hnot
          by_contra hne
          exact hnot ⟨harm, by omega, hwideTag, by omega⟩
      · rw [if_neg hcut]
        refine ⟨fun _ hcutOff => hcut ⟨hcutOff.1, ?_, ?_⟩, fun _ => rfl⟩
        · have := hcutOff.2.1
          omega
        · rw [hcutOff.2.2.1]
          rfl

/-! ## Adjacent values -/

/-- The values read one after the other, and where the last one ends. -/
def readVarInts (data : Nat → UInt8) (size bit : Nat) : Nat → Option (List Nat × Nat)
  | 0 => some ([], bit)
  | n + 1 => do
    let (values, bit) ← readVarInts data size bit n
    let result := readVarInt data size bit
    if result.code = STACKMAP_OK then some (values ++ [result.value], result.nextBit) else none

/-- The same with the other reader. -/
def readEHFrameVarInts (arm : Bool) (data : Nat → UInt8) (p pos : Nat) : Nat → List Nat × Nat × Nat
  | 0 => ([], p, pos)
  | n + 1 =>
    let (values, p, pos) := readEHFrameVarInts arm data p pos n
    let (value, p, pos) := readEHFrameVarInt arm data p pos
    (values ++ [value], p, pos)

/-- The two readers return the same and leave the same position. -/
def SameRead (arm : Bool) (data : Nat → UInt8) (size p pos : Nat) : Prop :=
  ∃ value p' pos', readEHFrameVarInt arm data p pos = (value, p', pos') ∧
    readVarInt data size (8 * p + 4 * pos) = ⟨STACKMAP_OK, value, 8 * p' + 4 * pos'⟩

/-- The two readers return the same `n` values and leave the same position. -/
def SameReads (arm : Bool) (data : Nat → UInt8) (size p pos n : Nat) : Prop :=
  ∃ values p' pos', readEHFrameVarInts arm data p pos n = (values, p', pos') ∧
    readVarInts data size (8 * p + 4 * pos) n = some (values, 8 * p' + 4 * pos')

section Agree

variable {arm : Bool} {p pos : Nat}

/-- **One value**: the two readers agree exactly unless the value is cut off.  It is cut off if the
    load has only 32 bits, the payload has all 32 and starts in the middle of a byte, and its
    highest nibble is not 0. -/
theorem sameRead_iff (hpos : pos ≤ 1) (hsize : size ≤ MAX_SIZE)
    (hlong : varEnd data (8 * p + 4 * pos) ≤ 8 * size) :
    SameRead arm data size p pos ↔ ¬ CutOff arm data (8 * p + 4 * pos) := by
  obtain ⟨value, p', pos', hread, -, hend, hvalue⟩ := readEHFrameVarInt_spec arm data hpos
  have hother := readVarInt_ok hsize hlong
  rw [← hvalue]
  constructor
  · rintro ⟨v, q, qos, hread', hother'⟩
    rw [hread] at hread'
    rw [hother] at hother'
    have hv : value = v := congrArg Prod.fst hread'
    have hw : varValue data (8 * p + 4 * pos) = v := congrArg WordResult.value hother'
    rw [hv, hw]
  · intro heq
    exact ⟨value, p', pos', hread, by rw [hother, heq, hend]⟩

/-- The values of the format from `bit` on. -/
def varValues (data : Nat → UInt8) (bit n : Nat) : List Nat :=
  (List.range n).map fun k => varValue data (varStart data bit k)

/-- One number more. -/
theorem varValues_succ (data : Nat → UInt8) (bit n : Nat) :
    varValues data bit (n + 1) = varValues data bit n ++ [varValue data (varStart data bit n)] := by
  simp only [varValues, List.range_succ, List.map_append, List.map_cons, List.map_nil]

/-- The reader of the stack maps reads the values of the format. -/
theorem readVarInts_eq (hsize : size ≤ MAX_SIZE) : ∀ n, varStart data bit n ≤ 8 * size →
    readVarInts data size bit n = some (varValues data bit n, varStart data bit n) := by
  intro n
  induction n with
  | zero =>
    intro hlong
    rfl
  | succ n ih =>
    intro hlong
    have hprefix := varStart_mono data bit (Nat.le_succ n)
    have hread := @readVarInt_ok data size (varStart data bit n) hsize hlong
    rw [readVarInts, ih (Nat.le_trans hprefix hlong), varValues_succ, varStart]
    simp only [Option.bind_eq_bind, Option.bind_some, hread, if_true]

/-- The reader of the unwinder ends where the values end, and reads the values exactly if none of
    them is cut off. -/
theorem readEHFrameVarInts_spec (hpos : pos ≤ 1) : ∀ n, ∃ values p' pos',
    readEHFrameVarInts arm data p pos n = (values, p', pos') ∧ pos' ≤ 1 ∧
      8 * p' + 4 * pos' = varStart data (8 * p + 4 * pos) n ∧ values.length = n ∧
      (values = varValues data (8 * p + 4 * pos) n ↔
        ∀ k, k < n → ¬ CutOff arm data (varStart data (8 * p + 4 * pos) k)) := by
  intro n
  induction n with
  | zero => exact ⟨[], p, pos, rfl, hpos, rfl, rfl, ⟨fun _ k hk => absurd hk (Nat.not_lt_zero k),
      fun _ => rfl⟩⟩
  | succ n ih =>
    obtain ⟨values, q, qos, hread, hqos, hbit, hlength, hvalues⟩ := ih
    obtain ⟨value, p', pos', hone, hpos', hend, hvalue⟩ := @readEHFrameVarInt_spec arm data
      q qos hqos
    rw [hbit] at hend hvalue
    refine ⟨values ++ [value], p', pos', ?_, hpos', hend, by simp [hlength], ?_⟩
    · simp only [readEHFrameVarInts, hread, hone]
    · rw [varValues_succ]
      constructor
      · intro heq k hk
        obtain ⟨hinit, hlast⟩ := List.append_inj' heq rfl
        rcases Nat.eq_or_lt_of_le (Nat.le_of_lt_succ hk) with rfl | hlt
        · exact hvalue.mp (List.cons.inj hlast).1
        · exact hvalues.mp hinit k hlt
      · intro hnone
        rw [hvalues.mpr fun k hk => hnone k (Nat.lt_succ_of_lt hk),
          hvalue.mpr (hnone n (Nat.lt_succ_self n))]

/-- **The two readers agree, unless a value is cut off**: on one value exactly unless it is cut off,
    and on any number of adjacent values exactly unless one of them is. -/
theorem varInt_readers_agree (hpos : pos ≤ 1) (hsize : size ≤ MAX_SIZE) :
    (varEnd data (8 * p + 4 * pos) ≤ 8 * size →
      (SameRead arm data size p pos ↔ ¬ CutOff arm data (8 * p + 4 * pos))) ∧
    ∀ n, varStart data (8 * p + 4 * pos) n ≤ 8 * size →
      (SameReads arm data size p pos n ↔
        ∀ k, k < n → ¬ CutOff arm data (varStart data (8 * p + 4 * pos) k)) := by
  refine ⟨sameRead_iff hpos hsize, fun n hlong => ?_⟩
  obtain ⟨values, p', pos', hread, -, hend, -, hvalues⟩ :=
    @readEHFrameVarInts_spec data arm p pos hpos n
  have hother := readVarInts_eq hsize n hlong
  rw [← hvalues]
  constructor
  · rintro ⟨vs, q, qos, hread', hother'⟩
    rw [hread] at hread'
    rw [hother] at hother'
    have hvs : values = vs := congrArg Prod.fst hread'
    have hws : varValues data (8 * p + 4 * pos) n = vs :=
      congrArg Prod.fst (Option.some.inj hother')
    rw [hvs, hws]
  · intro heq
    exact ⟨values, p', pos', hread, by rw [hother, heq, hend]⟩

/-- A 32-bit value that starts at a byte, with the payload 0xffffffff. -/
def fullPayload : Nat → UInt8 := fun k => [0xff, 0xff, 0xff, 0xff, 0x0f].getD k 0

/-- With loads of 64 bits both readers agree on it. -/
theorem varInt_readers_agree_fullPayload :
    (varEnd fullPayload (8 * 0 + 4 * 0) ≤ 8 * 5 →
      (SameRead false fullPayload 5 0 0 ↔ ¬ CutOff false fullPayload (8 * 0 + 4 * 0))) ∧
    ∀ n, varStart fullPayload (8 * 0 + 4 * 0) n ≤ 8 * 5 →
      (SameReads false fullPayload 5 0 0 n ↔
        ∀ k, k < n → ¬ CutOff false fullPayload (varStart fullPayload (8 * 0 + 4 * 0) k)) :=
  varInt_readers_agree (by decide) (by decide)

/-- With loads of 32 bits they do not: one reads 0x0fffffff, the other 0xffffffff. -/
theorem fullPayload_cutOff : varEnd fullPayload (8 * 0 + 4 * 0) ≤ 8 * 5 ∧
    readEHFrameVarInt true fullPayload 0 0 = (0x0fffffff, 4, 1) ∧
    readVarInt fullPayload 5 0 = ⟨STACKMAP_OK, 0xffffffff, 36⟩ ∧
    ¬ SameRead true fullPayload 5 0 0 := by
  have hread : readEHFrameVarInt true fullPayload 0 0 = (0x0fffffff, 4, 1) := by decide +kernel
  have hother : readVarInt fullPayload 5 0 = ⟨STACKMAP_OK, 0xffffffff, 36⟩ := by decide +kernel
  refine ⟨by decide +kernel, hread, hother, ?_⟩
  rintro ⟨value, p', pos', h, h'⟩
  rw [hread] at h
  rw [show 8 * 0 + 4 * 0 = 0 from rfl, hother] at h'
  have hlow : 0x0fffffff = value := congrArg Prod.fst h
  have hhigh : 0xffffffff = value := congrArg WordResult.value h'
  omega

end Agree

end CangjieRuntime.Stackmap
