/-
  Numbers of the demangler.

  A mangled number is written with base-62 digits in front of a `_`, and stands for one more than its
  digits say.  The two decoders agree on all of them, and read back what the encoder writes
  (`numbers_agree`).  A rendered number is decimal, and its digits come from a division by ten without
  a division (`decimal_exact`).
-/
import Mathlib.Data.BitVec
import Mathlib.Data.Nat.Digits.Defs
import Mathlib.Tactic.Ring
import CangjieRuntime.Demangle.TypeLists

set_option linter.unusedVariables false

namespace CangjieRuntime.Demangle

open CangjieRuntime.Computation

/-! ## Base 62 -/

/-- The value of a digit. -/
def digitValue (ch : UInt8) : Nat := (BASE62_CHARS.idxOf? ch).getD 0

/-- The digit with a value. -/
def base62Digit (value : Nat) : UInt8 := BASE62_CHARS.getD value 0

/-- The canonical digits of a number, without the `_`: none for 0, and the base-62 digits of `n - 1`
    for another `n`. -/
def encodeNumber (n : Nat) : RtString :=
  if n = 0 then []
  else if n = 1 then [base62Digit 0]
  else ((Nat.digits 62 (n - 1)).map base62Digit).reverse

/-- A digit is added to the value, and the power goes on. -/
def digitStep (v : BitVec 64 × BitVec 64) (ch : UInt8) : BitVec 64 × BitVec 64 :=
  (v.1 + BitVec.ofNat 64 (digitValue ch) * v.2, v.2 * 62)

section Base62

variable {xs number : RtString}

theorem idxOf?_eq {ch : UInt8} (h : isAlnum ch = true) :
    BASE62_CHARS.idxOf? ch = some (digitValue ch) := by
  obtain ⟨i, hi⟩ := Option.isSome_iff_exists.mp (isAlnum_cases ch h).2.2
  rw [digitValue, hi]
  rfl

/-- The loop of the demangler is that of the steps. -/
theorem base62_eq : ∀ (xs : RtString) (v : BitVec 64 × BitVec 64), IsNumber xs →
    xs.foldlM (fun (value, power) ch =>
      (BASE62_CHARS.idxOf? ch).map fun i => (value + BitVec.ofNat 64 i * power, power * 62)) v =
      some (xs.foldl digitStep v) := by
  intro xs
  induction xs with
  | nil => exact fun v _ => rfl
  | cons ch xs ih =>
    intro v h
    rw [List.foldlM_cons, List.foldl_cons, idxOf?_eq (h ch List.mem_cons_self)]
    exact ih _ fun ch' hch' => h ch' (List.mem_cons_of_mem ch hch')

/-- A loop whose rounds are the steps. -/
theorem foldl_digitStep {f : BitVec 64 × BitVec 64 → UInt8 → BitVec 64 × BitVec 64}
    (hf : ∀ v ch, isAlnum ch = true → f v ch = digitStep v ch) :
    ∀ (xs : RtString) (v : BitVec 64 × BitVec 64), IsNumber xs →
      xs.foldl f v = xs.foldl digitStep v := by
  intro xs
  induction xs with
  | nil => exact fun v _ => rfl
  | cons ch xs ih =>
    intro v h
    rw [List.foldl_cons, List.foldl_cons, hf v ch (h ch List.mem_cons_self)]
    exact ih _ fun ch' hch' => h ch' (List.mem_cons_of_mem ch hch')

/-- **The two decoders have the same value.**  Here for the one on a whole string: it goes through
    the digits from the left and stops at the `_`. -/
theorem getNumber_eq (hnumber : IsNumber number) :
    getNumber (number ++ [95]) = numberValue number := by
  have hreverse : IsNumber number.reverse :=
    fun ch hch => hnumber ch (List.mem_reverse.mp hch)
  by_cases hnil : number = []
  · subst hnil
    rfl
  · have hne : ¬ number ++ [95] = ascii "_" := by
      intro hc
      have hlen := congrArg List.length hc
      rw [List.length_append, List.length_singleton, show (ascii "_").length = 1 from rfl] at hlen
      exact hnil (List.length_eq_zero_iff.mp (by omega))
    have htake : (number ++ [95]).take ((number ++ [95]).length - 1) = number := by
      rw [List.length_append, List.length_singleton, Nat.add_sub_cancel, List.take_left]
    rw [getNumber, if_neg hne, htake, numberValue, if_neg hnil, base62, base62_eq _ _ hreverse,
      foldl_digitStep _ _ _ hreverse]
    · rfl
    · intro v ch hch
      dsimp only
      rw [idxOf?_eq hch]
      rfl

/-- The value of the steps, from the least digit on. -/
theorem digitSteps_eq : ∀ (xs : RtString) (v : BitVec 64 × BitVec 64),
    (xs.foldl digitStep v).1 =
      v.1 + BitVec.ofNat 64 (Nat.ofDigits 62 (xs.map digitValue)) * v.2 := by
  intro xs
  induction xs with
  | nil =>
    intro v
    show v.1 = v.1 + 0#64 * v.2
    rw [BitVec.zero_mul, BitVec.add_zero]
  | cons ch xs ih =>
    intro v
    rw [List.foldl_cons, ih, List.map_cons, Nat.ofDigits_cons, digitStep]
    dsimp only
    rw [BitVec.ofNat_add, BitVec.ofNat_mul]
    show v.1 + BitVec.ofNat 64 (digitValue ch) * v.2 +
      BitVec.ofNat 64 (Nat.ofDigits 62 (xs.map digitValue)) * (v.2 * 62) =
      v.1 + (BitVec.ofNat 64 (digitValue ch) +
        62 * BitVec.ofNat 64 (Nat.ofDigits 62 (xs.map digitValue))) * v.2
    ring

theorem base62Digit_value : ∀ value < 62, isAlnum (base62Digit value) = true ∧
    digitValue (base62Digit value) = value := by decide +kernel

/-- The encoder writes a number. -/
theorem isNumber_encodeNumber (n : Nat) : IsNumber (encodeNumber n) := by
  intro ch hch
  rw [encodeNumber] at hch
  split at hch
  · cases hch
  · split at hch
    · rw [List.mem_singleton.mp hch]
      exact (base62Digit_value 0 (by decide)).1
    · rw [List.mem_reverse, List.mem_map] at hch
      obtain ⟨value, hvalue, rfl⟩ := hch
      exact (base62Digit_value value (Nat.digits_lt_base (by decide) hvalue)).1

/-- **The decoder reads back what is written**, up to the 64 bits.  The digits are those of one
    less, and the last step of the decoder adds it. -/
theorem numberValue_encodeNumber (n : Nat) : numberValue (encodeNumber n) = BitVec.ofNat 64 n := by
  rcases Nat.lt_or_ge n 2 with hlt | hge
  · obtain rfl | rfl : n = 0 ∨ n = 1 := by omega
    · rfl
    · decide +kernel
  · have hdigits : encodeNumber n = ((Nat.digits 62 (n - 1)).map base62Digit).reverse := by
      rw [encodeNumber, if_neg (by omega), if_neg (by omega)]
    have hne : encodeNumber n ≠ [] := by
      rw [hdigits]
      intro hnil
      rw [List.reverse_eq_nil_iff, List.map_eq_nil_iff, Nat.digits_eq_nil_iff_eq_zero] at hnil
      omega
    have hreverse : IsNumber (encodeNumber n).reverse :=
      fun ch hch => isNumber_encodeNumber n ch (List.mem_reverse.mp hch)
    have hvalues : (encodeNumber n).reverse.map digitValue = Nat.digits 62 (n - 1) := by
      rw [hdigits, List.reverse_reverse, List.map_map]
      refine (List.map_congr_left fun value hvalue => ?_).trans (List.map_id _)
      exact (base62Digit_value value (Nat.digits_lt_base (by decide) hvalue)).2
    rw [numberValue, if_neg hne, base62, base62_eq _ _ hreverse, Option.getD_some, digitSteps_eq,
      hvalues, Nat.ofDigits_digits]
    show 0#64 + BitVec.ofNat 64 (n - 1) * 1#64 + 1#64 = _
    rw [BitVec.zero_add, BitVec.mul_one, ← BitVec.ofNat_add, Nat.sub_add_cancel (by omega)]

/-- **The two decoders agree** on all numbers, and read back the canonical digits of every number
    below the limit of `Int64`.  Both multiply and add in words of 64 bits, so that they agree also
    where a sum wraps. -/
theorem numbers_agree :
    (∀ number, IsNumber number → ∀ pre rest scopeRes d fuel,
      Before pre (number ++ [95] ++ rest) scopeRes d → number.length < fuel → ∃ d',
        demangleManglingNumber fuel d = some (getNumber (number ++ [95]), d') ∧
        d'.currentIndex = pre.length + (number ++ [95]).length ∧ d'.isValid = true) ∧
    ∀ n < 2 ^ 63, IsNumber (encodeNumber n) ∧ (getNumber (encodeNumber n ++ [95])).toInt = n := by
  constructor
  · intro number hnumber pre rest scopeRes d fuel hd hfuel
    have hahead := hd.ahead
    rw [List.append_assoc, List.singleton_append] at hahead
    obtain ⟨d', heq, hafter⟩ := demangleManglingNumber_gives hnumber hfuel hahead
    refine ⟨d', by rw [heq, getNumber_eq hnumber], ?_, hafter.valid⟩
    rw [← List.singleton_append, ← List.append_assoc number] at hafter
    exact hd.index hafter
  · intro n hn
    refine ⟨isNumber_encodeNumber n, ?_⟩
    rw [getNumber_eq (isNumber_encodeNumber n), numberValue_encodeNumber]
    have hvalue : (BitVec.ofNat 64 n).toNat = n := by
      rw [BitVec.toNat_ofNat]
      omega
    rw [BitVec.toInt_eq_toNat_cond, if_pos (by omega), hvalue]

/-- A hundred is `1b`, also between a letter and two types. -/
theorem numbers_agree_hundred : encodeNumber 100 = ascii "1b" ∧
    (∃ d', demangleManglingNumber 3
        { Demangler.init (ascii "T1b_ll") false (ascii "::") with currentIndex := 1 } =
          some (getNumber (ascii "1b_"), d') ∧ d'.currentIndex = 4 ∧ d'.isValid = true) ∧
    (getNumber (encodeNumber 100 ++ [95])).toInt = 100 := by
  have hnumber : IsNumber (ascii "1b") := forall_chars (by decide)
  refine ⟨by decide +kernel, ?_, (numbers_agree.2 100 (by decide)).2⟩
  exact numbers_agree.1 (ascii "1b") hnumber (ascii "T") (ascii "ll") (ascii "::") _ 3
    ⟨rfl, rfl, rfl, rfl⟩ (by decide)

end Base62

/-! ## Decimals -/

/-- A round of the sum of shifts: it is `1 + 1 / k` times as large, up to the remainder. -/
theorem shift_round (q k : Nat) (hk : 0 < k) :
    k * (q + q / k) ≤ (k + 1) * q ∧ (k + 1) * q < k * (q + q / k) + k := by
  have hdiv := Nat.div_add_mod q k
  have hmod := Nat.mod_lt q hk
  have hexpand : k * (q + q / k) = k * q + k * (q / k) := Nat.mul_add k q (q / k)
  have hsucc : (k + 1) * q = k * q + q := Nat.succ_mul k q
  omega

/-- The sum of shifts is 4 fifths of the number, up to 8. -/
theorem shiftSum_bounds {n q0 q1 q2 q3 q4 : Nat} (hn : n < 2 ^ 64) (h0 : q0 = n / 2 + n / 4)
    (h1 : q1 = q0 + q0 / 16) (h2 : q2 = q1 + q1 / 256) (h3 : q3 = q2 + q2 / 65536)
    (h4 : q4 = q3 + q3 / 4294967296) : 5 * q4 ≤ 4 * n ∧ 4 * n ≤ 5 * q4 + 40 := by
  have hfirst : 4 * q0 ≤ 3 * n ∧ 3 * n ≤ 4 * q0 + 5 := by omega
  have hround1 := shift_round q0 16 (by decide)
  have hround2 := shift_round q1 256 (by decide)
  have hround3 := shift_round q2 65536 (by decide)
  have hround4 := shift_round q3 4294967296 (by decide)
  rw [← h1] at hround1
  rw [← h2] at hround2
  rw [← h3] at hround3
  rw [← h4] at hround4
  clear h0 h1 h2 h3 h4
  constructor
  · linarith only [hfirst.1, hround1.1, hround2.1, hround3.1, hround4.1]
  · linarith only [hn, hfirst.2, hround1.2, hround2.2, hround3.2, hround4.2]

/-- The sum of shifts over 8 is the quotient, or less by one. -/
theorem shiftSum_div {n q4 : Nat} (h : 5 * q4 ≤ 4 * n ∧ 4 * n ≤ 5 * q4 + 40) :
    10 * (q4 / 8) ≤ n ∧ q4 / 8 + (n - 10 * (q4 / 8) + 6) / 16 = n / 10 := by
  have hle : 10 * (q4 / 8) ≤ n := by omega
  obtain ⟨remainder, hremainder⟩ := Nat.exists_eq_add_of_le hle
  have hlt : remainder < 20 := by omega
  refine ⟨hle, ?_⟩
  rw [hremainder, Nat.add_sub_cancel_left, Nat.mul_add_div (by decide)]
  -- the remainder is corrected by one round
  rcases Nat.lt_or_ge remainder 10 with hsmall | hlarge
  · rw [Nat.div_eq_of_lt hsmall, Nat.div_eq_of_lt (show remainder + 6 < 16 by omega)]
  · have hcorrected : (remainder + 6) / 16 = 1 := by omega
    have hdigit : remainder / 10 = 1 := by omega
    rw [hcorrected, hdigit]

/-- **The division by ten is exact.**  The sum of shifts is the quotient or one less, and the
    remainder tells which of them: adding 6 carries into bit 4 from 10 on. -/
theorem rtDivideBy10_toNat (n : BitVec 64) : (rtDivideBy10 n).toNat = n.toNat / 10 := by
  have hn := n.isLt
  obtain ⟨q0, h0⟩ : ∃ q, q = n.toNat / 2 + n.toNat / 4 := ⟨_, rfl⟩
  obtain ⟨q1, h1⟩ : ∃ q, q = q0 + q0 / 16 := ⟨_, rfl⟩
  obtain ⟨q2, h2⟩ : ∃ q, q = q1 + q1 / 256 := ⟨_, rfl⟩
  obtain ⟨q3, h3⟩ : ∃ q, q = q2 + q2 / 65536 := ⟨_, rfl⟩
  obtain ⟨q4, h4⟩ : ∃ q, q = q3 + q3 / 4294967296 := ⟨_, rfl⟩
  have hbounds := shiftSum_bounds hn h0 h1 h2 h3 h4
  obtain ⟨hle, hquotient⟩ := shiftSum_div hbounds
  -- no round wraps: the sums only grow, up to 4 fifths of the number
  have hlt4 : q4 < 2 ^ 64 := by omega
  have hlt3 : q3 < 2 ^ 64 := by omega
  have hlt2 : q2 < 2 ^ 64 := by omega
  have hlt1 : q1 < 2 ^ 64 := by omega
  have hlt0 : q0 < 2 ^ 64 := by omega
  have hround : ∀ (q : BitVec 64) (shift sum sum' : Nat), q.toNat = sum →
      sum' = sum + sum / 2 ^ shift → sum' < 2 ^ 64 → (q + (q >>> shift)).toNat = sum' := by
    intro q shift sum sum' hq hsum hlt
    rw [BitVec.toNat_add, BitVec.toNat_ushiftRight, Nat.shiftRight_eq_div_pow, hq, ← hsum,
      Nat.mod_eq_of_lt hlt]
  have hsum0 : ((n >>> 1) + (n >>> 2)).toNat = q0 := by
    rw [BitVec.toNat_add, BitVec.toNat_ushiftRight, BitVec.toNat_ushiftRight,
      Nat.shiftRight_eq_div_pow, Nat.shiftRight_eq_div_pow, ← h0, Nat.mod_eq_of_lt hlt0]
  have hsum4 := hround _ 32 _ _ (hround _ 16 _ _ (hround _ 8 _ _ (hround _ 4 _ _ hsum0 h1 hlt1) h2
    hlt2) h3 hlt3) h4 hlt4
  have hshift : ∀ q : BitVec 64, q.toNat = q4 → (q >>> 3).toNat = q4 / 8 := by
    intro q hq
    rw [BitVec.toNat_ushiftRight, Nat.shiftRight_eq_div_pow, hq]
  have hcorrect : ∀ q : BitVec 64, q.toNat = q4 / 8 →
      (q + ((n - q * 10 + 6) >>> 4)).toNat = q4 / 8 + (n.toNat - 10 * (q4 / 8) + 6) / 16 := by
    intro q hq
    have hproduct : (q * 10).toNat = 10 * (q4 / 8) := by
      rw [BitVec.toNat_mul, hq]
      show q4 / 8 * 10 % 2 ^ 64 = _
      omega
    have hremainder : (n - q * 10 + 6).toNat = n.toNat - 10 * (q4 / 8) + 6 := by
      rw [BitVec.toNat_add, BitVec.toNat_sub_of_le (by rw [BitVec.le_def, hproduct]; exact hle),
        hproduct]
      show (_ + 6) % 2 ^ 64 = _
      omega
    rw [BitVec.toNat_add, BitVec.toNat_ushiftRight, Nat.shiftRight_eq_div_pow, hremainder, hq]
    exact Nat.mod_eq_of_lt (by omega)
  exact (hcorrect _ (hshift _ hsum4)).trans hquotient

/-! ### Digits -/

theorem decimalDigit : ∀ digit < 10, isCurrentCharDigit (digit.toUInt8 + 48) = true ∧
    (digit.toUInt8 + 48).toNat - 48 = digit ∧ (digit.toUInt8 + 48 = 48 → digit = 0) := by decide

theorem decimal_snoc (front : RtString) (ch : UInt8) :
    decimal (front ++ [ch]) = decimal front * 10 + (ch.toNat - 48) := by
  rw [decimal, List.foldl_append]
  rfl

/-- The digits of a number, without zeros in front of them. -/
structure IsDecimal (front : RtString) (value : Nat) : Prop where
  digits : ∀ ch ∈ front, isCurrentCharDigit ch = true
  sum : decimal front = value
  head : value ≠ 0 → ∃ ch more, front = ch :: more ∧ ch ≠ 48
  zero : value = 0 → front = []

/-- A digit is put behind. -/
theorem IsDecimal.snoc {front : RtString} {value : Nat} (h : IsDecimal front (value / 10))
    (hne : value ≠ 0) : IsDecimal (front ++ [(value % 10).toUInt8 + 48]) value := by
  obtain ⟨hdigit, hvalue, hzero⟩ := decimalDigit (value % 10) (Nat.mod_lt value (by decide))
  refine ⟨fun ch hch => ?_, ?_, fun _ => ?_, fun hc => absurd hc hne⟩
  · rcases List.mem_append.mp hch with hfront | hlast
    · exact h.digits ch hfront
    · rw [List.mem_singleton.mp hlast]
      exact hdigit
  · rw [decimal_snoc, h.sum, hvalue]
    omega
  · by_cases hquotient : value / 10 = 0
    · rw [h.zero hquotient]
      refine ⟨_, [], rfl, fun hc => ?_⟩
      have := hzero hc
      omega
    · obtain ⟨ch, more, heq, hch⟩ := h.head hquotient
      exact ⟨ch, more ++ [_], by rw [heq]; rfl, hch⟩

/-- The loop writes the digits of a number in front of others. -/
theorem rtDigits_eq : ∀ (fuel : Nat) (value : BitVec 64) (digits : RtString),
    value.toNat < 10 ^ fuel →
      ∃ front, rtDigits fuel value digits = front ++ digits ∧ IsDecimal front value.toNat := by
  intro fuel
  induction fuel with
  | zero =>
    intro value digits hlt
    have hzero : value.toNat = 0 := by omega
    rw [hzero]
    exact ⟨[], rfl, nofun, rfl, fun hne => absurd rfl hne, fun _ => rfl⟩
  | succ fuel ih =>
    intro value digits hlt
    rw [rtDigits]
    -- the digits are all there, or one more is split off
    by_cases hzero : value = 0
    · rw [if_pos hzero]
      subst hzero
      exact ⟨[], rfl, nofun, rfl, fun hne => absurd rfl hne, fun _ => rfl⟩
    · rw [if_neg hzero]
      dsimp only
      have hquotient := rtDivideBy10_toNat value
      generalize rtDivideBy10 value = quotient at hquotient
      have hproduct : (quotient * 10).toNat = value.toNat / 10 * 10 := by
        rw [BitVec.toNat_mul, hquotient]
        have := value.isLt
        show value.toNat / 10 * 10 % 2 ^ 64 = _
        omega
      have hremainder : (value - quotient * 10).toNat = value.toNat % 10 := by
        rw [BitVec.toNat_sub_of_le (by rw [BitVec.le_def, hproduct]; exact Nat.div_mul_le_self _ _),
          hproduct]
        omega
      rw [hremainder]
      obtain ⟨front, heq, hfront⟩ :=
        ih quotient (((value.toNat % 10).toUInt8 + 48) :: digits) (by
          rw [hquotient, Nat.div_lt_iff_lt_mul (by decide)]
          rwa [Nat.pow_succ] at hlt)
      rw [hquotient] at hfront
      refine ⟨_, ?_, hfront.snoc fun hc => hzero (BitVec.eq_of_toNat_eq hc)⟩
      rw [heq, List.append_assoc]
      rfl

/-- The canonical decimal of a number: a `-` if it is negative, and its digits, with no 0 in front. -/
def IsCanonicalDecimal (s : RtString) (v : Int) : Prop :=
  ∃ digits, s = (if v < 0 then ascii "-" else []) ++ digits ∧
    (∀ ch ∈ digits, isCurrentCharDigit ch = true) ∧ decimal digits = v.natAbs ∧
    ∃ ch more, digits = ch :: more ∧ (ch = 48 → more = [] ∧ v = 0)

theorem rtIntToString_canonical (v : BitVec 64) : IsCanonicalDecimal (rtIntToString v) v.toInt := by
  rw [rtIntToString]
  by_cases hzero : v = 0
  · rw [if_pos hzero, hzero]
    refine ⟨ascii "0", rfl, ?_, rfl, 48, [], rfl, fun _ => ⟨rfl, rfl⟩⟩
    exact forall_chars (by decide)
  rw [if_neg hzero]
  have hne : v.toNat ≠ 0 := fun hc => hzero (BitVec.eq_of_toNat_eq hc)
  have hlimit : ∀ value : BitVec 64, value.toNat < 10 ^ 20 :=
    fun value => Nat.lt_trans value.isLt (by decide)
  by_cases hneg : v.msb = true
  · -- the negation in two steps is that of the least value, too
    have hsteps : -(v + 1) + 1 = -v := by ring
    have hlarge := BitVec.msb_eq_true_iff_two_mul_ge.mp hneg
    have habs : (-v).toNat = v.toInt.natAbs := by
      rw [BitVec.toNat_neg, BitVec.toInt_eq_msb_cond, if_pos hneg]
      omega
    obtain ⟨front, heq, hfront⟩ := rtDigits_eq 20 (-v) [] (hlimit _)
    rw [List.append_nil] at heq
    rw [if_pos hneg, hsteps, heq]
    have hnegative := BitVec.toInt_neg_of_msb_true hneg
    obtain ⟨ch, more, hhead, hch⟩ := hfront.head (by omega)
    exact ⟨front, by rw [if_pos hnegative], hfront.digits,
      hfront.sum.trans habs, ch, more, hhead, fun hc => absurd hc hch⟩
  · have hvalue : v.toInt = v.toNat := by rw [BitVec.toInt_eq_msb_cond, if_neg hneg]
    obtain ⟨front, heq, hfront⟩ := rtDigits_eq 20 v [] (hlimit _)
    rw [List.append_nil] at heq
    rw [if_neg hneg, heq]
    obtain ⟨ch, more, hhead, hch⟩ := hfront.head hne
    exact ⟨front, by rw [if_neg (by omega)]; rfl, hfront.digits, by rw [hfront.sum]; omega, ch, more,
      hhead, fun hc => absurd hc hch⟩

/-- **Decimals are exact**: the division without a division, and the text of every number.  The
    quotient is a sum of shifts with a last correction; the digits come out from the last to the
    first, and the negative numbers are those of their absolute value, also the least one, whose
    negation is no `Int64`. -/
theorem decimal_exact : (∀ n : BitVec 64, (rtDivideBy10 n).toNat = n.toNat / 10) ∧
    ∀ v : BitVec 64, IsCanonicalDecimal (rtIntToString v) v.toInt :=
  ⟨rtDivideBy10_toNat, rtIntToString_canonical⟩

end CangjieRuntime.Demangle
