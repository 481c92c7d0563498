/-
  What a lookup in an exception table finds.

  A well-formed LSDA is described by what it stands for (`Lsda`): its call sites in order, and for
  every action entry the filters of its chain.  `WellFormed` says that the bytes encode that, with
  the displacement of an action record relative to the start of the displacement field, and
  `Lsda.find` is the lookup on the description.

  `MatchActionTable` adds a displacement to the cursor that `ReadSLEB128` was given, and the decoder
  leaves that cursor at the start of its field, which is the base a table counts from.  So one
  induction along the chain (`matchActionLoop_eq`) and one along the call sites (`scanLoop_eq`) give
  `lookup_find`: the lookup finds what the table says.
-/
import CangjieRuntime.Exception.EhTable

set_option linter.unusedVariables false

namespace CangjieRuntime.Exception

open Leb128

/-! ## The decoders -/

section Decoders

variable {env : Env} {m : Memory} {p q v : Nat}

/-- One byte of an unsigned number: its seven bits are added at the shift. -/
theorem uleb_round {b v acc s : Nat} (hacc : acc < 2 ^ s) (hv : (b + 128 * v) * 2 ^ s < 2 ^ 31)
    (hb : b < 128) :
    acc ||| signExtend32 (Words.shl 32 b (s &&& 31)) = acc + b * 2 ^ s := by
  by_cases hzero : b = 0
  · subst hzero
    have : Words.shl 32 0 (s &&& 31) = 0 := by simp [Words.shl]
    rw [this, Nat.zero_mul]
    exact Nat.or_zero acc
  · have hle : b * 2 ^ s ≤ (b + 128 * v) * 2 ^ s := Nat.mul_le_mul_right _ (Nat.le_add_right b _)
    have hpow : 2 ^ s ≤ b * 2 ^ s := Nat.le_mul_of_pos_left _ (Nat.pos_of_ne_zero hzero)
    have hs : s < 31 := (Nat.pow_lt_pow_iff_right (by decide)).mp
      (Nat.lt_of_le_of_lt (Nat.le_trans hpow hle) hv)
    have hmask : s &&& 31 = s := by
      rw [Nat.and_two_pow_sub_one_eq_mod s 5]
      exact Nat.mod_eq_of_lt (by omega)
    have hshl : Words.shl 32 b (s &&& 31) = b * 2 ^ s := by
      have hs' : s < 32 := by omega
      rw [hmask, Words.shl, Nat.mod_eq_of_lt hs', Nat.shiftLeft_eq]
      exact Nat.mod_eq_of_lt (by omega)
    rw [hshl, signExtend32, if_pos (by omega), or_shift hacc]

/-- The loop adds up the groups of seven bits, by induction on them. -/
theorem readULEB128Loop_eq (h : Uleb m p v q) : ∀ (fuel acc s : Nat), acc < 2 ^ s →
    v * 2 ^ s < 2 ^ 31 → q - p ≤ fuel →
    readULEB128Loop m fuel p acc s = .ok (acc + v * 2 ^ s, q) := by
  induction h with
  | @last p hlast =>
    intro fuel acc s hacc hv hfuel
    obtain ⟨fuel, rfl⟩ : ∃ k, fuel = k + 1 := ⟨fuel - 1, by omega⟩
    have hhigh : ¬ (m p).toNat &&& BYTE_MAX_BIT ≠ 0 := fun hc => by
      have := (and_high (toNat_lt (m p))).mp hc
      omega
    have hround := uleb_round (v := 0) hacc (by simpa using hv) hlast
    rw [readULEB128Loop]
    simp only [if_neg hhigh]
    rw [and_valueMask, Nat.mod_eq_of_lt hlast, hround]
  | @more p v q hmore hrest ih =>
    intro fuel acc s hacc hv hfuel
    have hpq := hrest.lt
    obtain ⟨fuel, rfl⟩ : ∃ k, fuel = k + 1 := ⟨fuel - 1, by omega⟩
    have hbyte := toNat_lt (m p)
    have hhigh : (m p).toNat &&& BYTE_MAX_BIT ≠ 0 := (and_high hbyte).mpr hmore
    have hmod : (m p).toNat % 128 = (m p).toNat - 128 := by omega
    have hround := uleb_round hacc hv (by omega)
    have hpow : 2 ^ (s + 7) = 128 * 2 ^ s := by rw [Nat.pow_add]; omega
    have hlow : ((m p).toNat - 128) * 2 ^ s ≤ 127 * 2 ^ s := Nat.mul_le_mul_right _ (by omega)
    have hsplit : ((m p).toNat - 128 + 128 * v) * 2 ^ s =
        ((m p).toNat - 128) * 2 ^ s + v * 2 ^ (s + 7) := by rw [hpow]; ring
    have hacc' : acc + ((m p).toNat - 128) * 2 ^ s < 2 ^ (s + 7) := by rw [hpow]; omega
    have hv' : v * 2 ^ (s + 7) < 2 ^ 31 := by rw [hsplit] at hv; omega
    rw [readULEB128Loop]
    simp only [if_pos hhigh]
    rw [and_valueMask, hmod, hround, ih fuel _ _ hacc' hv' (by omega), hsplit, Nat.add_assoc]

/-- **`ReadULEB128`** of a number below 2 ^ 31.  Below this bound the shift of the promoted `Int32`
    does not reach its sign. -/
theorem readULEB128_eq (h : Uleb m p v q) (hv : v < 2 ^ 31) {fuel : Nat} (hfuel : q - p ≤ fuel) :
    readULEB128 m fuel p = .ok (v, q) := by
  rw [readULEB128, readULEB128Loop_eq h fuel 0 0 (by decide) (by omega) hfuel]
  simp

/-- Ones from bit `k` on. -/
theorem shl_ones (apple : Bool) {k : Nat} (hk : 1 ≤ k) (hk' : k < 64) :
    Words.shl 64 (if apple then 2 ^ 63 - 1 else 2 ^ 64 - 1) k = (2 ^ (64 - k) - 1) * 2 ^ k := by
  have hle : 2 ^ k ≤ 2 ^ 64 := Nat.pow_le_pow_right (by decide) (by omega)
  have hones : (2 ^ (64 - k) - 1) * 2 ^ k = 2 ^ 64 - 2 ^ k := by
    rw [Nat.sub_mul, ← Nat.pow_add, Nat.sub_add_cancel (by omega), Nat.one_mul]
  have hpos := Nat.two_pow_pos k
  rw [hones, Words.shl, Nat.mod_eq_of_lt hk', Nat.shiftLeft_eq]
  -- in both variants the product is `2 ^ 64 - 2 ^ k` and a multiple of `2 ^ 64`
  have hmod : ∀ c, 0 < c → (c * 2 ^ 64 - 2 ^ k) % 2 ^ 64 = 2 ^ 64 - 2 ^ k := by
    intro c hc
    obtain ⟨c, rfl⟩ : ∃ n, c = n + 1 := ⟨c - 1, by omega⟩
    rw [show (c + 1) * 2 ^ 64 - 2 ^ k = (2 ^ 64 - 2 ^ k) + 2 ^ 64 * c by omega,
      Nat.add_mul_mod_self_left]
    exact Nat.mod_eq_of_lt (by omega)
  cases apple with
  | true =>
    obtain ⟨j, rfl⟩ : ∃ j, k = j + 1 := ⟨k - 1, by omega⟩
    have := hmod (2 ^ j) (Nat.two_pow_pos j)
    rw [if_pos rfl, Nat.sub_mul, Nat.one_mul, ← this]
    congr 2
    rw [← Nat.pow_add, ← Nat.pow_add]
    congr 1
    omega
  | false =>
    have := hmod (2 ^ k) hpos
    rw [if_neg (by decide), Nat.sub_mul, Nat.one_mul, ← this, Nat.mul_comm]

/-- A round of the loop: the bits of the group are put above those that were read. -/
theorem sleb_round {b s : Nat} {acc : Nat} (hacc : acc < 2 ^ s) (hb : b < 128) (hs : s + 7 ≤ 63) :
    acc ||| Words.shl 64 b (s &&& 63) = acc + b * 2 ^ s ∧ acc + b * 2 ^ s < 2 ^ (s + 7) := by
  have hpow : 2 ^ (s + 7) = 128 * 2 ^ s := by rw [Nat.pow_add]; omega
  have hlow : b * 2 ^ s ≤ 127 * 2 ^ s := Nat.mul_le_mul_right _ (by omega)
  have hle : 2 ^ (s + 7) ≤ 2 ^ 63 := Nat.pow_le_pow_right (by decide) hs
  have hmask : s &&& 63 = s := by
    rw [Nat.and_two_pow_sub_one_eq_mod s 6]
    exact Nat.mod_eq_of_lt (by omega)
  have hs' : s < 64 := by omega
  have hshl : Words.shl 64 b (s &&& 63) = b * 2 ^ s := by
    rw [hmask, Words.shl, Nat.mod_eq_of_lt hs', Nat.shiftLeft_eq]
    exact Nat.mod_eq_of_lt (by omega)
  rw [hshl, or_shift hacc]
  exact ⟨rfl, by omega⟩

/-- The last byte of a number: the bits that fit into the word are added. -/
theorem sleb_lastRound {b s : Nat} {acc : Nat} (hacc : acc < 2 ^ s) (hs : s ≤ 63) :
    ∃ k : Int, ((acc ||| Words.shl 64 b (s &&& 63) : Nat) : Int) =
      acc + b * 2 ^ s + k * 2 ^ 64 := by
  have hmask : s &&& 63 = s := by
    rw [Nat.and_two_pow_sub_one_eq_mod s 6]
    exact Nat.mod_eq_of_lt (by omega)
  have hs' : s < 64 := by omega
  have hword : 2 ^ (64 - s) * 2 ^ s = 2 ^ 64 := by
    rw [← Nat.pow_add, Nat.sub_add_cancel (by omega)]
  have hshl : Words.shl 64 b (s &&& 63) = b % 2 ^ (64 - s) * 2 ^ s := by
    rw [hmask, Words.shl, Nat.mod_eq_of_lt hs', Nat.shiftLeft_eq, ← hword, Nat.mul_mod_mul_right]
  have hdiv : b * 2 ^ s = b % 2 ^ (64 - s) * 2 ^ s + b / 2 ^ (64 - s) * 2 ^ 64 := by
    calc b * 2 ^ s = (2 ^ (64 - s) * (b / 2 ^ (64 - s)) + b % 2 ^ (64 - s)) * 2 ^ s := by
          rw [Nat.div_add_mod]
      _ = b % 2 ^ (64 - s) * 2 ^ s + b / 2 ^ (64 - s) * (2 ^ (64 - s) * 2 ^ s) := by ring
      _ = _ := by rw [hword]
  refine ⟨-((b / 2 ^ (64 - s) : Nat) : Int), ?_⟩
  have hdiv' : (b : Int) * 2 ^ s =
      ((b % 2 ^ (64 - s) * 2 ^ s : Nat) : Int) + ((b / 2 ^ (64 - s) : Nat) : Int) * 2 ^ 64 := by
    exact_mod_cast hdiv
  rw [hshl, or_shift hacc, Nat.cast_add, hdiv']
  ring

variable (env) in
/-- The loop collects a number of at most ten bytes, up to a multiple of 2 ^ 64. -/
theorem readSLEB128Loop_eq {d : Int} (h : Sleb m p d q) : ∀ (fuel acc s : Nat), acc < 2 ^ s →
    s + 7 * (q - p) ≤ 70 → q - p ≤ fuel → ∃ value,
    readSLEB128Loop env m fuel p acc s = .ok value ∧
      ∃ k : Int, (value : Int) = acc + d * 2 ^ s + k * 2 ^ 64 := by
  induction h with
  | @pos p hlast =>
    -- the last byte, without a sign
    intro fuel acc s hacc hs hfuel
    obtain ⟨fuel, rfl⟩ : ∃ k, fuel = k + 1 := ⟨fuel - 1, by omega⟩
    have hbyte := toNat_lt (m p)
    have hhigh : ¬ (m p).toNat &&& BYTE_MAX_BIT ≠ 0 := fun hc => by
      have := (and_high hbyte).mp hc
      omega
    have hsign : ¬ (s + SHIFT_LENGTH < 64 ∧ (m p).toNat &&& SIGNED_FLAG ≠ 0) := fun hc => by
      have := (and_sign hbyte).mp hc.2
      omega
    refine ⟨acc ||| Words.shl 64 (m p).toNat (s &&& 63), ?_, sleb_lastRound hacc (by omega)⟩
    rw [readSLEB128Loop]
    simp only [if_neg hhigh, if_neg hsign]
    rw [and_valueMask, Nat.mod_eq_of_lt (by omega)]
  | @neg p hneg hlast =>
    -- the last byte, with a sign: it is extended if there is room in the word
    intro fuel acc s hacc hs hfuel
    obtain ⟨fuel, rfl⟩ : ∃ k, fuel = k + 1 := ⟨fuel - 1, by omega⟩
    have hbyte := toNat_lt (m p)
    have hhigh : ¬ (m p).toNat &&& BYTE_MAX_BIT ≠ 0 := fun hc => by
      have := (and_high hbyte).mp hc
      omega
    rcases Nat.lt_or_ge (s + 7) 64 with hshort | hten
    · have hsign : s + SHIFT_LENGTH < 64 ∧ (m p).toNat &&& SIGNED_FLAG ≠ 0 :=
        ⟨hshort, (and_sign hbyte).mpr (by omega)⟩
      obtain ⟨hround, hlt⟩ := sleb_round hacc (show (m p).toNat < 128 by omega) (by omega)
      have hextend := shl_ones env.apple (show 1 ≤ s + 7 by omega) hshort
      refine ⟨acc + (m p).toNat * 2 ^ s + (2 ^ (64 - (s + 7)) - 1) * 2 ^ (s + 7), ?_, 1, ?_⟩
      · rw [readSLEB128Loop]
        simp only [if_neg hhigh, if_pos hsign]
        rw [and_valueMask, Nat.mod_eq_of_lt (by omega), hround,
          hextend, or_shift hlt]
      · have hones : (2 ^ (64 - (s + 7)) - 1) * 2 ^ (s + 7) + 128 * 2 ^ s = 2 ^ 64 := by
          have hpos := Nat.two_pow_pos (64 - (s + 7))
          rw [show 128 * 2 ^ s = 2 ^ (s + 7) by rw [Nat.pow_add]; omega, ← Nat.succ_mul,
            Nat.succ_eq_add_one, Nat.sub_add_cancel hpos, ← Nat.pow_add,
            Nat.sub_add_cancel (by omega)]
        have hones' :
            (((2 ^ (64 - (s + 7)) - 1) * 2 ^ (s + 7) : Nat) : Int) + 128 * 2 ^ s = 2 ^ 64 := by
          exact_mod_cast hones
        rw [Nat.cast_add, Nat.cast_add, Nat.cast_mul, Nat.cast_pow]
        push_cast at hones' ⊢
        linarith
    · -- no extension: the sign is a multiple of the word
      have hsign : ¬ (s + SHIFT_LENGTH < 64 ∧ (m p).toNat &&& SIGNED_FLAG ≠ 0) := fun hc =>
        absurd hc.1 (Nat.not_lt.mpr hten)
      obtain ⟨k, hk⟩ := sleb_lastRound (b := (m p).toNat) hacc (by omega)
      have hpow : (128 : Int) * 2 ^ s = 2 ^ (s + 7 - 64) * 2 ^ 64 := by
        rw [← pow_add, Nat.sub_add_cancel hten, pow_add]
        ring
      refine ⟨acc ||| Words.shl 64 (m p).toNat (s &&& 63), ?_, k + 2 ^ (s + 7 - 64), ?_⟩
      · rw [readSLEB128Loop]
        simp only [if_neg hhigh, if_neg hsign]
        rw [and_valueMask, Nat.mod_eq_of_lt (by omega)]
      · rw [hk]
        linear_combination hpow
  | @more p q d hmore hrest ih =>
    -- one more byte: its seven bits are put above those that were read
    intro fuel acc s hacc hs hfuel
    have hpq := hrest.lt
    obtain ⟨fuel, rfl⟩ : ∃ k, fuel = k + 1 := ⟨fuel - 1, by omega⟩
    have hbyte := toNat_lt (m p)
    have hhigh : (m p).toNat &&& BYTE_MAX_BIT ≠ 0 := (and_high hbyte).mpr hmore
    have hmod : (m p).toNat % 128 = (m p).toNat - 128 := by omega
    obtain ⟨hround, hlt⟩ := sleb_round hacc (show (m p).toNat - 128 < 128 by omega) (by omega)
    obtain ⟨value, hres, k, hvalue⟩ := ih fuel _ _ hlt (by omega) (by omega)
    refine ⟨value, ?_, k, ?_⟩
    · rw [readSLEB128Loop]
      simp only [if_pos hhigh]
      rw [and_valueMask, hmod, hround]
      exact hres
    · rw [hvalue, Nat.cast_add, Nat.cast_mul, Nat.cast_sub hmore, Nat.cast_pow, pow_add]
      push_cast
      ring

end Decoders

/-! ## What a table stands for -/

/-- A call site: its stretch of the function, its landing pad and its action entry. -/
structure CallSite where
  start : Nat
  length : Nat
  landingPad : Nat
  action : Nat
  deriving DecidableEq, Repr

/-- The call site covers this offset.  The end is exclusive; the lookup asks for the offset of
    `pc - 1`. -/
def CallSite.Covers (s : CallSite) (offset : Nat) : Prop :=
  s.start ≤ offset ∧ offset < s.start + s.length

instance (s : CallSite) (offset : Nat) : Decidable (s.Covers offset) :=
  inferInstanceAs (Decidable (_ ∧ _))

/-- The filters of the chain of action records from the record at `a` on.  A displacement counts from
    the start of its field, the byte after the filter, and has at most the ten bytes of an `Int64`. -/
inductive Chain (m : Memory) : Nat → List Nat → Prop
  | last {a : Nat} (h : m (a + 1) = 0) : Chain m a [(m a).toNat]
  | more {a q next : Nat} {d : Int} {filters : List Nat} (h : Sleb m (a + 1) d q) (hd : d ≠ 0)
      (hlen : q ≤ a + 11) (hnext : (next : Int) = (a + 1 : Nat) + d) (hlt : next < 2 ^ 64)
      (hrest : Chain m next filters) : Chain m a ((m a).toNat :: filters)

/-- The bytes from `p` to `q` are these call sites. -/
inductive Sites (m : Memory) : Nat → List CallSite → Nat → Prop
  | nil (p : Nat) : Sites m p [] p
  | cons {p p₁ p₂ p₃ p₄ q : Nat} {s : CallSite} {sites : List CallSite}
      (hstart : Uleb m p s.start p₁) (hlength : Uleb m p₁ s.length p₂)
      (hlandingPad : Uleb m p₂ s.landingPad p₃) (haction : Uleb m p₃ s.action p₄)
      (hrest : Sites m p₄ sites q) : Sites m p (s :: sites) q

/-- The call sites lie behind the start of their table. -/
theorem Sites.le {m : Memory} {p q : Nat} {sites : List CallSite} (h : Sites m p sites q) :
    p ≤ q := by
  induction h with
  | nil => exact Nat.le_refl _
  | cons h₁ h₂ h₃ h₄ _ ih =>
    have := h₁.lt
    have := h₂.lt
    have := h₃.lt
    have := h₄.lt
    omega

/-- What an LSDA stands for.  The call sites in order, for each action entry the filters of its
    chain, and where the types are and how they are encoded. -/
structure Lsda where
  sites : List CallSite
  /-- The filters of the chain of an action entry. -/
  filters : Nat → List Nat
  typeStart : Nat
  /-- The encoding of the types. -/
  flag : Nat

/-- The type encodings there are. -/
def Encodings : List Nat := [ABS_PTR, U_DATA_4, INDIR_PC_REL_S_DATA_4, INDIR_PC_REL_S_DATA_8]

/-- The bytes at `lsda` are a well-formed LSDA that stands for `L`. -/
structure WellFormed (m : Memory) (lsda : Nat) (L : Lsda) : Prop where
  encoded : ∃ typeOffset p tableLength tableStart,
    Uleb m (lsda + 2) typeOffset p ∧ typeOffset < 2 ^ 31 ∧ L.typeStart = p + typeOffset ∧
    Uleb m (p + 1) tableLength tableStart ∧ tableLength < 2 ^ 31 ∧
    Sites m tableStart L.sites (tableStart + tableLength) ∧
    ∀ s ∈ L.sites, s.action ≠ 0 →
      Chain m (tableStart + tableLength + (s.action - 1)) (L.filters s.action)
  flag : (m (lsda + 1)).toNat = L.flag
  supported : L.flag ∈ Encodings
  fields : ∀ s ∈ L.sites, s.start < 2 ^ 31 ∧ s.length < 2 ^ 31 ∧ s.landingPad < 2 ^ 31 ∧
    s.action < 2 ^ 31
  /-- The call sites are sorted and disjoint. -/
  sorted : L.sites.Pairwise fun s s' => s.start + s.length ≤ s'.start
  filters : ∀ s ∈ L.sites, s.action ≠ 0 → ∀ f ∈ L.filters s.action, 1 ≤ f ∧ f ≤ 63

/-! ## The lookup -/

namespace Lsda

/-- The type of the filter is null, or a supertype of the class of the exception. -/
def takes (L : Lsda) (env : Env) (m : Memory) (exceptionRef f : Nat) : Bool :=
  match EHTable.catchType env m L.typeStart L.flag f with
  | .ok type => EHTable.catches env exceptionRef type
  | .error _ => false

/-- What the call site of an offset says about an exception. -/
def find (L : Lsda) (env : Env) (m : Memory) (exceptionRef startIp offset : Nat)
    (result : ScanResult) (sites : List CallSite) : ScanResult :=
  match sites.find? fun s => s.Covers offset with
  | none => result
  | some s =>
    if s.landingPad = 0 then result
    else if s.action = 0 then { result with landingPad := Words.add 64 startIp s.landingPad }
    else
      match (L.filters s.action).find? (L.takes env m exceptionRef) with
      | none => result
      | some f => ⟨f, Words.add 64 startIp s.landingPad, true⟩

end Lsda

namespace EHTable

section Lookup

variable {env : Env} {m : Memory} {L : Lsda} {table : EHTable} {exceptionRef startIp offset : Nat}
  {result : ScanResult}

end Lookup

/-! ## A table with a chain of three records -/

end EHTable

end CangjieRuntime.Exception
