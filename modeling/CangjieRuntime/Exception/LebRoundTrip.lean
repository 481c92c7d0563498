/-
  Round trips of the LEB128 decoders (`rt.exception/EhTablePrimitives.cj`).

  `ReadSLEB128` reads back every `Int64`, with both constants of the sign extension, and leaves the
  cursor of its caller at the start of the number (`readSLEB128_roundTrip`): the action tables count
  their displacements from there.  `ReadULEB128` writes the cursor back.  It shifts the seven bits of
  a byte in 32 bits and extends the sign, so that it reads back a number below 2 ^ 31, and by chance
  the last eight (`readULEB128_roundTrip`).
-/
import CangjieRuntime.Exception.EhLookup

set_option linter.unusedVariables false

namespace CangjieRuntime.Exception

open Leb128

section Signed

variable {m : Memory} {p q : Nat} {d : Int}

/-- A byte shifted in 64 bits. -/
theorem or_shl_lt {x b s : Nat} (hx : x < 2 ^ 64) : x ||| Words.shl 64 b s < 2 ^ 64 :=
  Nat.or_lt_two_pow hx (Nat.mod_lt _ (by decide))

/-- The decoder returns a word. -/
theorem readSLEB128Loop_lt (env : Env) : ∀ (fuel p acc s value : Nat), acc < 2 ^ 64 →
    readSLEB128Loop env m fuel p acc s = .ok value → value < 2 ^ 64 := by
  intro fuel
  induction fuel with
  | zero => exact fun p acc s value hacc h => by cases h
  | succ fuel ih =>
    intro p acc s value hacc h
    rw [readSLEB128Loop] at h
    dsimp only at h
    split at h
    · exact ih _ _ _ _ (or_shl_lt hacc) h
    · split at h
      · cases h
        exact or_shl_lt (or_shl_lt hacc)
      · cases h
        exact or_shl_lt hacc

/-- A number of at most ten bytes that is an `Int64`. -/
theorem readSLEB128_int64 (env : Env) (h : Sleb m p d q) (hlen : q ≤ p + 10) (hle : -2 ^ 63 ≤ d)
    (hlt : d < 2 ^ 63) {fuel : Nat} (hfuel : q - p ≤ fuel) :
    readSLEB128 env m fuel p = .ok ((d % 2 ^ 64).toNat, p) := by
  obtain ⟨value, hres, k, hvalue⟩ :=
    readSLEB128Loop_eq env h fuel 0 0 (by decide) (by omega) hfuel
  have hword := readSLEB128Loop_lt env fuel p 0 0 value (by decide) hres
  have hvalue' : value = (d % 2 ^ 64).toNat := by omega
  rw [readSLEB128, hres, hvalue']
  rfl

/-- The bytes up to the first without the high bit end a number, on either target. -/
theorem readSLEB128Loop_ends (m : Memory) : ∀ (i p acc s : Nat), (∀ j < i, 128 ≤ (m (p + j)).toNat) →
    (m (p + i)).toNat < 128 → ∃ value, ∀ (env : Env) (fuel : Nat), i < fuel →
      readSLEB128Loop env m fuel p acc s = .ok value := by
  intro i
  induction i with
  | zero =>
    intro p acc s hmore hlast
    have hhigh : ¬ (m p).toNat &&& BYTE_MAX_BIT ≠ 0 := fun hc => by
      have := (and_high (toNat_lt (m p))).mp hc
      exact absurd hlast (by rw [Nat.add_zero]; omega)
    let value := acc ||| Words.shl 64 ((m p).toNat &&& VALUE_MASK) (s &&& 63)
    by_cases hsign : s + SHIFT_LENGTH < 64 ∧ (m p).toNat &&& SIGNED_FLAG ≠ 0
    · refine ⟨value ||| (2 ^ (64 - (s + 7)) - 1) * 2 ^ (s + 7), fun env fuel hfuel => ?_⟩
      obtain ⟨fuel, rfl⟩ := Nat.exists_eq_succ_of_ne_zero (Nat.ne_of_gt hfuel)
      -- the constants of the two targets differ in a bit that is shifted out
      have hextend := shl_ones env.apple (show 1 ≤ s + 7 by omega)
        (show s + 7 < 64 from hsign.1)
      rw [readSLEB128Loop]
      simp only [if_neg hhigh, if_pos hsign]
      rw [hextend]
    · refine ⟨value, fun env fuel hfuel => ?_⟩
      obtain ⟨fuel, rfl⟩ := Nat.exists_eq_succ_of_ne_zero (Nat.ne_of_gt hfuel)
      rw [readSLEB128Loop]
      simp only [if_neg hhigh, if_neg hsign]
      rfl
  | succ i ih =>
    intro p acc s hmore hlast
    have hhigh : (m p).toNat &&& BYTE_MAX_BIT ≠ 0 :=
      (and_high (toNat_lt (m p))).mpr (hmore 0 (Nat.succ_pos i))
    obtain ⟨value, hrest⟩ := ih (p + 1)
      (acc ||| Words.shl 64 ((m p).toNat &&& VALUE_MASK) (s &&& 63)) (s + SHIFT_LENGTH)
      (fun j hj => by
        have := hmore (j + 1) (by omega)
        rwa [← Nat.add_assoc, Nat.add_right_comm] at this)
      (by rwa [← Nat.add_assoc, Nat.add_right_comm] at hlast)
    refine ⟨value, fun env fuel hfuel => ?_⟩
    obtain ⟨fuel, rfl⟩ := Nat.exists_eq_succ_of_ne_zero (Nat.ne_of_gt (Nat.zero_lt_of_lt hfuel))
    rw [readSLEB128Loop]
    simp only [if_pos hhigh]
    exact hrest env fuel (by omega)

/-- **`ReadSLEB128` reads back every `Int64`** on every target, and the targets agree on every
    number that ends within ten bytes.  The cursor stays where it was: neither arm writes it back,
    as `ReadULEB128` does, and the displacements of the action table are made for that. -/
theorem readSLEB128_roundTrip :
    (∀ (env : Env) (m : Memory) (p fuel : Nat) (v : BitVec 64), Holds m p (slebEncode v.toInt) →
      (slebEncode v.toInt).length ≤ fuel → readSLEB128 env m fuel p = .ok (v.toNat, p)) ∧
    ∀ (m : Memory) (p i : Nat), i < 10 → (∀ j < i, 128 ≤ (m (p + j)).toNat) →
      (m (p + i)).toNat < 128 → ∃ value, ∀ (env : Env) (fuel : Nat), 10 ≤ fuel →
        readSLEB128 env m fuel p = .ok (value, p) := by
  constructor
  · intro env m p fuel v hm hfuel
    have hle := BitVec.le_toInt v
    have hlt := @BitVec.toInt_lt 64 v
    have hlen := slebEncode_length 9 v.toInt (by omega) (by omega)
    rw [readSLEB128_int64 env (sleb_encode v.toInt p hm) (by omega) hle hlt (by omega)]
    have hword : (v.toInt % 2 ^ 64).toNat = v.toNat := by
      have := v.isLt
      rw [BitVec.toInt_eq_toNat_cond]
      split
      · omega
      · omega
    rw [hword]
  · intro m p i hi hmore hlast
    obtain ⟨value, hread⟩ := readSLEB128Loop_ends m i p 0 0 hmore hlast
    refine ⟨value, fun env fuel hfuel => ?_⟩
    rw [readSLEB128, hread env fuel (by omega)]
    rfl

/-- The two bytes of -65 at address 8. -/
def minus65 : Memory := fun p => if p = 8 then 0xbf else 0x7f

theorem minus65_holds : Holds minus65 8 (slebEncode (BitVec.ofInt 64 (-65)).toInt) ∧
    (slebEncode (BitVec.ofInt 64 (-65)).toInt).length = 2 := by
  have hvalue : (BitVec.ofInt 64 (-65)).toInt = -65 := by decide
  have hencode : slebEncode (BitVec.ofInt 64 (-65)).toInt = [0xbf, 0x7f] := by
    rw [hvalue, slebEncode, if_neg (by decide), slebEncode, if_pos (by decide)]
    rfl
  rw [hencode]
  exact ⟨⟨rfl, rfl, trivial⟩, rfl⟩

/-- The bytes of -65 on every target. -/
theorem readSLEB128_roundTrip_minus65 : ∀ env : Env,
    readSLEB128 env minus65 2 8 = .ok (2 ^ 64 - 65, 8) := fun env =>
  readSLEB128_roundTrip.1 env minus65 8 2 (BitVec.ofInt 64 (-65)) minus65_holds.1
    (Nat.le_of_eq minus65_holds.2)

/-- The cursor does not go behind the bytes of -65, on no target. -/
theorem readSLEB128_keeps_cursor :
    Holds minus65 8 (slebEncode (BitVec.ofInt 64 (-65)).toInt) ∧
    ∀ (env : Env) (fuel value : Nat), readSLEB128 env minus65 fuel 8 ≠
      .ok (value, 8 + (slebEncode (BitVec.ofInt 64 (-65)).toInt).length) := by
  refine ⟨minus65_holds.1, fun env fuel value hread => ?_⟩
  rw [minus65_holds.2, readSLEB128] at hread
  cases hloop : readSLEB128Loop env minus65 fuel 8 0 0 with
  | error fault =>
    rw [hloop] at hread
    cases hread
  | ok read =>
    rw [hloop] at hread
    cases hread

end Signed

section Unsigned

variable {m : Memory} {p q v : Nat}

/-- What the decoder makes of the groups of seven bits of a number, from a shift on. -/
def groupsRead : Nat → Nat → Nat → Nat
  | 0, _, _ => 0
  | n + 1, shift, v =>
    signExtend32 (Words.shl 32 (v % 128) (shift &&& 31)) ||| groupsRead n (shift + 7) (v / 128)

theorem signExtend32_zero (s : Nat) : signExtend32 (Words.shl 32 0 s) = 0 := by
  have hshl : Words.shl 32 0 s = 0 := by simp [Words.shl]
  rw [hshl]
  rfl

theorem groupsRead_zero : ∀ (n shift : Nat), groupsRead n shift 0 = 0 := by
  intro n
  induction n with
  | zero => exact fun shift => rfl
  | succ n ih =>
    intro shift
    rw [groupsRead, ih, signExtend32_zero]
    rfl

/-- The loop collects the groups, however many bytes they have. -/
theorem readULEB128Loop_groups (h : Uleb m p v q) : ∀ (fuel acc shift n : Nat), v < 128 ^ n →
    q - p ≤ fuel →
    readULEB128Loop m fuel p acc shift = .ok (acc ||| groupsRead n shift v, q) := by
  induction h with
  | @last p hlast =>
    intro fuel acc shift n hn hfuel
    obtain ⟨fuel, rfl⟩ : ∃ k, fuel = k + 1 := ⟨fuel - 1, by omega⟩
    have hhigh : ¬ (m p).toNat &&& BYTE_MAX_BIT ≠ 0 := fun hc => by
      have := (and_high (toNat_lt (m p))).mp hc
      omega
    rw [readULEB128Loop]
    simp only [if_neg hhigh]
    rw [and_valueMask, Nat.mod_eq_of_lt hlast]
    cases n with
    | zero =>
      have hzero : (m p).toNat = 0 := by omega
      rw [hzero, signExtend32_zero]
      rfl
    | succ n =>
      rw [groupsRead, Nat.mod_eq_of_lt hlast, Nat.div_eq_of_lt hlast, groupsRead_zero, Nat.or_zero]
  | @more p v q hmore hrest ih =>
    intro fuel acc shift n hn hfuel
    have hpq := hrest.lt
    obtain ⟨fuel, rfl⟩ : ∃ k, fuel = k + 1 := ⟨fuel - 1, by omega⟩
    have hbyte := toNat_lt (m p)
    have hhigh : (m p).toNat &&& BYTE_MAX_BIT ≠ 0 := (and_high hbyte).mpr hmore
    have hmod : (m p).toNat % 128 = (m p).toNat - 128 := by omega
    rw [readULEB128Loop]
    simp only [if_pos hhigh]
    rw [and_valueMask, hmod]
    cases n with
    | zero =>
      -- padding: all groups are 0
      have hzero : (m p).toNat - 128 + 128 * v = 0 := by omega
      have hv : v = 0 := by omega
      have hlow : (m p).toNat - 128 = 0 := by omega
      rw [ih fuel _ _ 0 (by rw [hv]; decide) (by omega), hlow, signExtend32_zero, Nat.or_zero]
      rfl
    | succ n =>
      have hlow : ((m p).toNat - 128 + 128 * v) % 128 = (m p).toNat - 128 := by omega
      have hhighPart : ((m p).toNat - 128 + 128 * v) / 128 = v := by omega
      have hv : v < 128 ^ n := by
        rw [pow_succ] at hn
        omega
      rw [groupsRead, hlow, hhighPart, ih fuel _ _ n hv (by omega), Nat.or_assoc]

/-- Above bit 30 all bits are the same.  The shift of a promoted `Int32` gives such words only, and
    so the reader is exact for these and no others. -/
def SignExtended (x : Nat) : Prop := x < 2 ^ 31 ∨ (2 ^ 64 - 2 ^ 31 ≤ x ∧ x < 2 ^ 64)

theorem signExtended_signExtend32 {x : Nat} (hx : x < 2 ^ 32) : SignExtended (signExtend32 x) := by
  rw [signExtend32]
  split
  case isTrue h => exact Or.inl h
  case isFalse h => exact Or.inr (by omega)

theorem SignExtended.or {x y : Nat} (hx : SignExtended x) (hy : SignExtended y) :
    SignExtended (x ||| y) := by
  have hlt : ∀ z, SignExtended z → z < 2 ^ 64 := by
    rintro z (h | h)
    · omega
    · exact h.2
  have hor := Nat.or_lt_two_pow (hlt x hx) (hlt y hy)
  rcases hx with hx | hx
  · rcases hy with hy | hy
    · exact Or.inl (Nat.or_lt_two_pow hx hy)
    · exact Or.inr ⟨Nat.le_trans hy.1 Nat.right_le_or, hor⟩
  · exact Or.inr ⟨Nat.le_trans hx.1 Nat.left_le_or, hor⟩

theorem signExtended_groupsRead : ∀ (n shift v : Nat), SignExtended (groupsRead n shift v) := by
  intro n
  induction n with
  | zero => exact fun shift v => Or.inl (by rw [groupsRead]; decide)
  | succ n ih =>
    intro shift v
    rw [groupsRead]
    exact (signExtended_signExtend32 (Nat.mod_lt _ (by decide))).or (ih _ _)

/-- Each group is a part of the result. -/
theorem or_groupsRead : ∀ (n j shift v : Nat), j < n →
    signExtend32 (Words.shl 32 (v / 128 ^ j % 128) ((shift + 7 * j) &&& 31)) |||
      groupsRead n shift v = groupsRead n shift v := by
  intro n
  induction n with
  | zero => exact fun j shift v hj => absurd hj (Nat.not_lt_zero j)
  | succ n ih =>
    intro j shift v hj
    rw [groupsRead]
    cases j with
    | zero =>
      rw [pow_zero, Nat.div_one, Nat.mul_zero, Nat.add_zero, ← Nat.or_assoc, Nat.or_self]
    | succ j =>
      have hrest := ih j (shift + 7) (v / 128) (by omega)
      rw [Nat.div_div_eq_div_mul, ← pow_succ', Nat.add_assoc,
        show 7 + 7 * j = 7 * (j + 1) by omega] at hrest
      rw [Nat.or_left_comm, hrest]

/-- Which numbers the groups say. -/
theorem groupsRead_eq_iff {v : Nat} (hv : v < 2 ^ 64) (hlarge : 2 ^ 31 ≤ v) :
    groupsRead 10 0 v = v ↔ 2 ^ 64 - 8 ≤ v := by
  constructor
  · intro heq
    have hsign := signExtended_groupsRead 10 0 v
    rw [heq] at hsign
    have hones : 2 ^ 64 - 2 ^ 31 ≤ v := by
      rcases hsign with h | h
      · omega
      · exact h.1
    -- the groups from bit 35 on are ones, and are put at the bits 3, 10, 17 and 24
    have hgroup : ∀ j, 5 ≤ j → j ≤ 8 → v / 128 ^ j % 128 = 127 := by
      intro j hj hj'
      obtain rfl | rfl | rfl | rfl : j = 5 ∨ j = 6 ∨ j = 7 ∨ j = 8 := by omega
      all_goals norm_num; omega
    have hpart : ∀ j, 5 ≤ j → j ≤ 8 →
        signExtend32 (Words.shl 32 127 ((0 + 7 * j) &&& 31)) ||| v = v := by
      intro j hj hj'
      have hor := or_groupsRead 10 j 0 v (by omega)
      rwa [heq, hgroup j hj hj'] at hor
    have hall : 2147483640 ||| v = v := by
      have hparts : 2147483640 =
          signExtend32 (Words.shl 32 127 ((0 + 7 * 5) &&& 31)) |||
          (signExtend32 (Words.shl 32 127 ((0 + 7 * 6) &&& 31)) |||
          (signExtend32 (Words.shl 32 127 ((0 + 7 * 7) &&& 31)) |||
          signExtend32 (Words.shl 32 127 ((0 + 7 * 8) &&& 31)))) := by decide
      rw [hparts, Nat.or_assoc, Nat.or_assoc, Nat.or_assoc, hpart 8 (by decide) (by decide),
        hpart 7 (by decide) (by decide), hpart 6 (by decide) (by decide),
        hpart 5 (by decide) (by decide)]
    have hlow : 2147483640 ≤ v % 2 ^ 31 := by
      have hmod := congrArg (· % 2 ^ 31) hall
      rw [Nat.or_mod_two_pow] at hmod
      rw [← hmod]
      exact Nat.left_le_or
    omega
  · intro hlast
    have hall : ∀ j < 8, groupsRead 10 0 (2 ^ 64 - 8 + j) = 2 ^ 64 - 8 + j := by decide +kernel
    obtain ⟨j, rfl⟩ := Nat.exists_eq_add_of_le hlast
    exact hall j (by omega)

/-- **`ReadULEB128`** of any encoding of a word.  The value is what the wrapped 32-bit groups add up
    to, and it is the word itself exactly below 2 ^ 31 and for the last eight words. -/
theorem readULEB128_word (h : Uleb m p v q) (hv : v < 2 ^ 64) {fuel : Nat} (hfuel : q - p ≤ fuel) :
    ∃ value, readULEB128 m fuel p = .ok (value, q) ∧
      (value = v ↔ v < 2 ^ 31 ∨ 2 ^ 64 - 8 ≤ v) := by
  rcases Nat.lt_or_ge v (2 ^ 31) with hsmall | hlarge
  · exact ⟨v, readULEB128_eq h hsmall hfuel, fun _ => Or.inl hsmall, fun _ => rfl⟩
  · refine ⟨groupsRead 10 0 v, ?_, (groupsRead_eq_iff hv hlarge).trans ?_⟩
    · rw [readULEB128, readULEB128Loop_groups h fuel 0 0 10 (by omega) hfuel, Nat.zero_or]
    · exact ⟨Or.inr, fun hc => hc.resolve_left (by omega)⟩

/-- A sequence of fields, read one after the other. -/
def readFields (m : Memory) (fuel : Nat) : Nat → Nat → Except Fault (List Nat × Nat)
  | 0, p => .ok ([], p)
  | n + 1, p => do
    let (v, p) ← readULEB128 m fuel p
    let (vs, p) ← readFields m fuel n p
    .ok (v :: vs, p)

theorem readFields_eq : ∀ (vs : List Nat) (p fuel : Nat),
    (∀ v ∈ vs, v < 2 ^ 64 ∧ (v < 2 ^ 31 ∨ 2 ^ 64 - 8 ≤ v)) → Holds m p (vs.flatMap ulebEncode) →
    (vs.flatMap ulebEncode).length ≤ fuel →
    readFields m fuel vs.length p = .ok (vs, p + (vs.flatMap ulebEncode).length) := by
  intro vs
  induction vs with
  | nil => exact fun p fuel hvs hm hfuel => rfl
  | cons v vs ih =>
    intro p fuel hvs hm hfuel
    rw [List.flatMap_cons] at hm hfuel
    rw [List.length_append] at hfuel
    obtain ⟨hfirst, hrest⟩ := hm.append
    obtain ⟨hlt, hexact⟩ := hvs v List.mem_cons_self
    have hbytes : p + (ulebEncode v).length - p ≤ fuel := by omega
    obtain ⟨value, hread, hiff⟩ := readULEB128_word (uleb_encode v p hfirst) hlt hbytes
    obtain rfl := hiff.mpr hexact
    have htail := ih _ fuel (fun v' hv' => hvs v' (List.mem_cons_of_mem value hv')) hrest (by omega)
    rw [List.length_cons, readFields, hread]
    dsimp only [bind, Except.bind]
    rw [htail, List.flatMap_cons, List.length_append, Nat.add_assoc]

/-- **`ReadULEB128` reads back a number** if and only if it is below 2 ^ 31 or one of the last eight,
    and goes behind its bytes always; so sequences of such fields are read back. -/
theorem readULEB128_roundTrip :
    (∀ (m : Memory) (p fuel : Nat) (v : BitVec 64), Holds m p (ulebEncode v.toNat) →
      (ulebEncode v.toNat).length ≤ fuel → ∃ value,
        readULEB128 m fuel p = .ok (value, p + (ulebEncode v.toNat).length) ∧
        (value = v.toNat ↔ v.toNat < 2 ^ 31 ∨ 2 ^ 64 - 8 ≤ v.toNat)) ∧
    ∀ (m : Memory) (p fuel : Nat) (vs : List Nat),
      (∀ v ∈ vs, v < 2 ^ 64 ∧ (v < 2 ^ 31 ∨ 2 ^ 64 - 8 ≤ v)) →
      Holds m p (vs.flatMap ulebEncode) → (vs.flatMap ulebEncode).length ≤ fuel →
      readFields m fuel vs.length p = .ok (vs, p + (vs.flatMap ulebEncode).length) := by
  refine ⟨fun m p fuel v hm hfuel => ?_, fun m p fuel vs hvs hm hfuel =>
    readFields_eq vs p fuel hvs hm hfuel⟩
  exact readULEB128_word (uleb_encode v.toNat p hm) v.isLt (by omega)

/-- The bytes of 128. -/
theorem readULEB128_roundTrip_128 :
    readULEB128 (fun p => if p = 8 then 0x80 else 1) 2 8 = .ok (128, 10) := by
  have hencode : ulebEncode (BitVec.ofNat 64 128).toNat = [0x80, 1] := by
    rw [show (BitVec.ofNat 64 128).toNat = 128 from rfl, ulebEncode, if_neg (by decide), ulebEncode,
      if_pos (by decide)]
    rfl
  obtain ⟨value, hread, hiff⟩ := readULEB128_roundTrip.1 (fun p => if p = 8 then 0x80 else 1) 8 2
    (BitVec.ofNat 64 128) (by rw [hencode]; exact ⟨rfl, rfl, trivial⟩) (by rw [hencode]; decide)
  have hvalue : value = 128 := hiff.mpr (Or.inl (by decide))
  rw [hencode, hvalue] at hread
  exact hread

/-- 2 ^ 31 is read back as its sign extension. -/
theorem readULEB128_two_pow_31 : Holds (fun p => if p = 4 then 8 else 0x80) 0 (ulebEncode (2 ^ 31)) ∧
    readULEB128 (fun p => if p = 4 then 8 else 0x80) 5 0 = .ok (2 ^ 64 - 2 ^ 31, 5) := by
  refine ⟨?_, by decide +kernel⟩
  iterate 4 rw [ulebEncode, if_neg (by decide)]
  rw [ulebEncode, if_pos (by decide)]
  exact ⟨rfl, rfl, rfl, rfl, rfl, trivial⟩

end Unsigned

end CangjieRuntime.Exception
