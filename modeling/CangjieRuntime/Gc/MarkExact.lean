/-
  Marking is exact: the invariant of the interleaved calls, and what it says when all have returned.

  The invariant relates the three accountings of the bitmap to the program counters (`Inv`).  Sums
  over the calls are sizes of sets of bits, since the winners' objects are disjoint
  (`sum_card_eq`); this also bounds every counter by what it counts, so no addition wraps.
-/
import CangjieRuntime.Gc.MarkBits

set_option linter.unusedVariables false

namespace CangjieRuntime.Gc

open Bits Runs

namespace MarkBits

open RegionBitmap

variable {τ : Type} [Fintype τ] {m : Marking τ}

/-! ## Invariant -/

/-- The bits of an object in the words before `front` and in part `p`. -/
def counted (m : Marking τ) (c : Call) (front p : Nat) : Finset Nat :=
  c.bits.filter fun b => b / 64 < front ∧ b / 64 / partDivisor m.regionSize = p

/-- The size of an object that was added to the live bytes. -/
def liveSize (c : Call) (pc : Pc) : Nat := if liveDone pc then c.byteCnt else 0

/-- The invariant of the calls.  The words, the counters and what the calls have done so far are
    tied together; a step of one call keeps what is said of the others. -/
structure Inv (m : Marking τ) (s : State τ) : Prop where
  wordCnt : s.bitmap.wordCnt = wordCount m.regionSize
  wordLt : ∀ i, s.bitmap.words i < 2 ^ 64
  pc : ∀ t, (s.pc t).Ok (m.call t)
  /-- The ones are the winners' bits in the words they have put in. -/
  words : ∀ b, (s.bitmap.words (b / 64)).testBit (b % 64) = true ↔
    ∃ t, b ∈ (m.call t).bits ∧ b / 64 < orFront (m.call t) (s.pc t)
  /-- An object has one winner. -/
  winner : ∀ t u, m.call t = m.call u → Won (m.call t) (s.pc t) → Won (m.call u) (s.pc u) → t = u
  /-- A call that returned true has a winner of its object. -/
  lost : ∀ t, s.pc t = .returned true → ∃ u, m.call u = m.call t ∧ Won (m.call u) (s.pc u)
  parts : ∀ p, s.bitmap.partLiveBytes p =
    ∑ t, (counted m (m.call t) (addFront (m.call t) (s.pc t)) p).card
  live : s.bitmap.liveBytes = ∑ t, liveSize (m.call t) (s.pc t)

/-- Disjoint sets of bits, one for each winner. -/
theorem sum_card_eq {W : τ → Prop} (hwin : ∀ t u, m.call t = m.call u → W t → W u → t = u)
    (S : τ → Finset Nat) (hsub : ∀ t, S t ⊆ (m.call t).bits) (hW : ∀ t b, b ∈ S t → W t) :
    ∑ t, (S t).card = (Finset.univ.biUnion S).card := by
  refine (Finset.card_biUnion fun t _ u _ htu => ?_).symm
  rw [Function.onFun, Finset.disjoint_left]
  intro b ht hu
  exact htu (hwin t u (m.call_eq (hsub t ht) (hsub u hu)) (hW t b ht) (hW u b hu))

omit [Fintype τ] in
/-- Words are counted after they are put in, and live bytes too. -/
theorem addFront_le (c : Call) (pc : Pc) : addFront c pc ≤ orFront c pc := by
  cases pc <;> simp only [addFront, orFront] <;> omega

omit [Fintype τ] in
/-- A thread counts the bytes of its object only if its mark was the first. -/
theorem won_of_live {c : Call} {pc : Pc} (hok : pc.Ok c) (h : liveDone pc = true) : Won c pc := by
  have hlast : c.head ≤ c.last := Nat.le_add_right _ _
  unfold Won
  cases pc with
  | tailOr idx => exact hok.1
  | tailAdd idx => exact Nat.lt_succ_of_lt hok.1
  | lastOr => exact hok.1
  | lastAdd => exact Nat.lt_succ_of_lt hok.1
  | returned isMarked =>
    cases isMarked with
    | false => exact Nat.lt_succ_of_le hlast
    | true => exact absurd h (by decide)
  | _ => exact absurd h (by decide)

/-- A part counts at most the bits a part has. -/
theorem sum_counted_le (pc : τ → Pc)
    (hwin : ∀ t u, m.call t = m.call u → Won (m.call t) (pc t) → Won (m.call u) (pc u) → t = u)
    (p : Nat) :
    ∑ t, (counted m (m.call t) (addFront (m.call t) (pc t)) p).card < 2 ^ 16 := by
  have hpos := partDivisor_pos m.wordCount_pos m.lt
  rw [sum_card_eq hwin (fun t => counted m (m.call t) (addFront (m.call t) (pc t)) p)
    fun t => Finset.filter_subset _ _]
  · -- the bits of part `p` are an interval
    have hsub : Finset.univ.biUnion (fun t => counted m (m.call t)
        (addFront (m.call t) (pc t)) p) ⊆
        Finset.Ico (64 * (partDivisor m.regionSize * p))
          (64 * (partDivisor m.regionSize * p) + 64 * partDivisor m.regionSize) := by
      intro b hb
      obtain ⟨t, -, hb⟩ := Finset.mem_biUnion.mp hb
      obtain ⟨-, -, hpart⟩ := Finset.mem_filter.mp hb
      have hdm := Nat.div_add_mod (b / 64) (partDivisor m.regionSize)
      have hlt := Nat.mod_lt (b / 64) hpos
      rw [hpart] at hdm
      rw [Finset.mem_Ico]
      omega
    have hcard := Finset.card_le_card hsub
    rw [Nat.card_Ico, Nat.add_sub_cancel_left] at hcard
    have := m.partFits
    omega
  · intro t b hb
    obtain ⟨hbits, hfront, -⟩ := Finset.mem_filter.mp hb
    have hhead := (Call.word_mem (m.ok t) m.lt hbits).1
    have := addFront_le (m.call t) (pc t)
    unfold Won
    omega

/-- The live bytes are at most the size of the region. -/
theorem sum_live_lt {pc : τ → Pc} (hok : ∀ t, (pc t).Ok (m.call t))
    (hwin : ∀ t u, m.call t = m.call u → Won (m.call t) (pc t) → Won (m.call u) (pc u) → t = u) :
    ∑ t, liveSize (m.call t) (pc t) < 2 ^ 64 := by
  have hsize : ∀ t, liveSize (m.call t) (pc t) =
      (if liveDone (pc t) then (m.call t).bits else ∅).card * 8 := by
    intro t
    unfold liveSize
    split_ifs
    · exact (Call.card_bits (m.ok t)).symm
    · rfl
  rw [Finset.sum_congr rfl fun t _ => hsize t, ← Finset.sum_mul,
    sum_card_eq hwin (fun t => if liveDone (pc t) then (m.call t).bits else ∅)]
  · have hsub : Finset.univ.biUnion (fun t => if liveDone (pc t) then (m.call t).bits else ∅) ⊆
        Finset.range (m.regionSize / 8) := by
      intro b hb
      obtain ⟨t, -, hb⟩ := Finset.mem_biUnion.mp hb
      split_ifs at hb
      · rw [Call.mem_bits] at hb
        have := (m.ok t).inside
        rw [Finset.mem_range]
        omega
      · exact absurd hb (Finset.notMem_empty b)
    have hcard := Finset.card_le_card hsub
    rw [Finset.card_range] at hcard
    have := m.lt
    omega
  · intro t
    split_ifs
    · exact subset_rfl
    · exact Finset.empty_subset _
  · intro t b hb
    split_ifs at hb with hlive
    · exact won_of_live (hok t) hlive
    · exact absurd hb (Finset.notMem_empty b)

/-- A sum in which one summand changes. -/
theorem sum_change [DecidableEq τ] {f g : τ → Nat} (t : τ) {d : Nat}
    (hother : ∀ u, u ≠ t → g u = f u) (ht : g t = f t + d) :
    ∑ u, g u = ∑ u, f u + d := by
  have hrest : ∑ u ∈ Finset.univ.erase t, g u = ∑ u ∈ Finset.univ.erase t, f u :=
    Finset.sum_congr rfl fun u hu => hother u (Finset.ne_of_mem_erase hu)
  rw [← Finset.add_sum_erase _ g (Finset.mem_univ t),
    ← Finset.add_sum_erase _ f (Finset.mem_univ t), hrest, ht]
  omega

/-! ## One atomic operation keeps the invariant -/

section Steps

variable [DecidableEq τ] {s : State τ} {t : τ}

omit [Fintype τ] in
/-- What is read off program counters, when a call's stays as it is. -/
theorem front_goto {α : Type} (f : Call → Pc → α) {b : RegionBitmap} {p : Pc}
    (h : f (m.call t) p = f (m.call t) (s.pc t)) (u : τ) :
    f (m.call u) (({ s with bitmap := b }.goto t p).pc u) = f (m.call u) (s.pc u) := by
  show f (m.call u) (Function.update s.pc t p u) = _
  by_cases hu : u = t
  · subst hu
    rw [Function.update_self]
    exact h
  · rw [Function.update_of_ne hu]

omit [Fintype τ] in
/-- A step of one thread leaves where the others are. -/
theorem pcOk_goto {b : RegionBitmap} {p : Pc} (h : ∀ u, (s.pc u).Ok (m.call u))
    (hp : p.Ok (m.call t)) (u : τ) : (({ s with bitmap := b }.goto t p).pc u).Ok (m.call u) := by
  show (Function.update s.pc t p u).Ok (m.call u)
  by_cases hu : u = t
  · subst hu
    rw [Function.update_self]
    exact hp
  · rw [Function.update_of_ne hu]
    exact h u

omit [Fintype τ] in
/-- The thread that makes the step is at its new place. -/
theorem goto_self {b : RegionBitmap} {p : Pc} :
    ({ s with bitmap := b }.goto t p).pc t = p := Function.update_self ..

omit [Fintype τ] in
/-- The others are where they were. -/
theorem goto_of_ne {b : RegionBitmap} {p : Pc} {u : τ} (hu : u ≠ t) :
    ({ s with bitmap := b }.goto t p).pc u = s.pc u := Function.update_of_ne hu ..

omit [DecidableEq τ] in
/-- A one of the head mask that is set belongs to a winner of the same object. -/
theorem Inv.winner_of_marked (h : Inv m s)
    (hold : s.bitmap.words (m.call t).head &&& (m.call t).mask (m.call t).head ≠ 0) :
    ∃ u, m.call u = m.call t ∧ Won (m.call u) (s.pc u) := by
  have hhead : (m.call t).head ≤ (m.call t).last := Nat.le_add_right _ _
  obtain ⟨i, hi⟩ := Nat.exists_testBit_of_ne_zero hold
  rw [Nat.testBit_and, Bool.and_eq_true] at hi
  have hi64 : i < 64 := by
    by_contra hge
    have := Nat.testBit_lt_two_pow (Nat.lt_of_lt_of_le (h.wordLt (m.call t).head)
      (Nat.pow_le_pow_right (by decide) (Nat.le_of_not_lt hge)))
    rw [this] at hi
    exact absurd hi.1 (by decide)
  have hbit := (Call.mask_testBit (m.ok t) m.lt (Nat.le_refl _) hhead hi64).mp hi.2
  have hset := (h.words (64 * (m.call t).head + i)).mp (by
    rw [Nat.mul_add_div (by decide), Nat.div_eq_of_lt hi64, Nat.add_zero, Nat.mul_add_mod,
      Nat.mod_eq_of_lt hi64]
    exact hi.1)
  obtain ⟨u, hu, hfront⟩ := hset
  refine ⟨u, m.call_eq hu hbit, ?_⟩
  have := (Call.word_mem (m.ok u) m.lt hu).1
  unfold Won
  omega

omit [DecidableEq τ] in
/-- The fronts, as a step with unchanged fronts leaves them: the words and the winners. -/
theorem Inv.of_same_or {s' : State τ} (h : Inv m s) (hwords : s'.bitmap.words = s.bitmap.words)
    (hcnt : s'.bitmap.wordCnt = s.bitmap.wordCnt) (hpc : ∀ u, (s'.pc u).Ok (m.call u))
    (hor : ∀ u, orFront (m.call u) (s'.pc u) = orFront (m.call u) (s.pc u))
    (hlost : ∀ u, s'.pc u = .returned true → ∃ v, m.call v = m.call u ∧ Won (m.call v) (s.pc v))
    (hparts : ∀ p, s'.bitmap.partLiveBytes p =
      ∑ u, (counted m (m.call u) (addFront (m.call u) (s'.pc u)) p).card)
    (hlive : s'.bitmap.liveBytes = ∑ u, liveSize (m.call u) (s'.pc u)) : Inv m s' where
  wordCnt := hcnt.trans h.wordCnt
  wordLt := by rw [hwords]; exact h.wordLt
  pc := hpc
  words := by
    intro b
    rw [hwords, h.words b]
    simp only [hor]
  winner := by
    intro u v huv hu hv
    unfold Won at hu hv
    rw [hor] at hu hv
    exact h.winner u v huv hu hv
  lost := by
    intro u hu
    obtain ⟨v, hv, hwon⟩ := hlost u hu
    refine ⟨v, hv, ?_⟩
    unfold Won
    rw [hor]
    exact hwon
  parts := hparts
  live := hlive

omit [Fintype τ] in
/-- The calls that have returned true after a step of call `t`. -/
theorem lost_goto {b : RegionBitmap} {p : Pc} {P : τ → Prop}
    (h : ∀ u, s.pc u = .returned true → P u) (hp : p = .returned true → P t) (u : τ)
    (hu : ({ s with bitmap := b }.goto t p).pc u = .returned true) : P u := by
  by_cases hut : u = t
  · subst hut
    rw [goto_self] at hu
    exact hp hu
  · rw [goto_of_ne hut] at hu
    exact h u hu

/-- A step that keeps what call `t` has counted. -/
theorem Inv.parts_goto (h : Inv m s) {b : RegionBitmap} {p : Pc}
    (hadd : addFront (m.call t) p = addFront (m.call t) (s.pc t)) (part : Nat) :
    s.bitmap.partLiveBytes part = ∑ u, (counted m (m.call u)
      (addFront (m.call u) (({ s with bitmap := b }.goto t p).pc u)) part).card := by
  rw [h.parts part]
  exact Finset.sum_congr rfl fun u _ => by rw [front_goto addFront hadd u]

/-- A step that keeps whether call `t` has added its object to the live bytes. -/
theorem Inv.live_goto (h : Inv m s) {b : RegionBitmap} {p : Pc}
    (hlive : liveDone p = liveDone (s.pc t)) : s.bitmap.liveBytes =
      ∑ u, liveSize (m.call u) (({ s with bitmap := b }.goto t p).pc u) := by
  rw [h.live]
  refine Finset.sum_congr rfl fun u _ => (front_goto liveSize ?_ u).symm
  unfold liveSize
  rw [hlive]

/-- A step that changes neither a word nor a count keeps the invariant. -/
theorem Inv.quiet (h : Inv m s) {p : Pc} (hok : p.Ok (m.call t))
    (hor : orFront (m.call t) p = orFront (m.call t) (s.pc t))
    (hadd : addFront (m.call t) p = addFront (m.call t) (s.pc t))
    (hlive : liveDone p = liveDone (s.pc t))
    (hlost : p = .returned true → s.pc t = .returned true ∨
      s.bitmap.words (m.call t).head &&& (m.call t).mask (m.call t).head ≠ 0) :
    Inv m (s.goto t p) := by
  refine h.of_same_or rfl rfl (pcOk_goto h.pc hok) (front_goto orFront hor) ?_ ?_ ?_
  · refine lost_goto h.lost fun hp => ?_
    rcases hlost hp with hpc | hold
    · exact h.lost t hpc
    · exact h.winner_of_marked hold
  · exact h.parts_goto hadd
  · exact h.live_goto hlive

omit [Fintype τ] [DecidableEq τ] in
/-- What a call has counted of a part grows by the ones of the word, if it is in the part. -/
theorem card_counted_succ {idx : Nat} (hlow : (m.call t).head ≤ idx)
    (hhigh : idx ≤ (m.call t).last) (part : Nat) :
    (counted m (m.call t) (idx + 1) part).card = (counted m (m.call t) idx part).card +
      if idx / partDivisor m.regionSize = part then popCount ((m.call t).mask idx) else 0 := by
  have hsplit : counted m (m.call t) (idx + 1) part = counted m (m.call t) idx part ∪
      ((m.call t).bits.filter fun b => b / 64 = idx).filter
        fun b => b / 64 / partDivisor m.regionSize = part := by
    ext b
    simp only [counted, Finset.mem_filter, Finset.mem_union]
    constructor
    · rintro ⟨hb, hfront, hpart⟩
      rcases Nat.lt_succ_iff_lt_or_eq.mp hfront with hlt | heq
      · exact Or.inl ⟨hb, hlt, hpart⟩
      · exact Or.inr ⟨⟨hb, heq⟩, hpart⟩
    · rintro (⟨hb, hfront, hpart⟩ | ⟨⟨hb, heq⟩, hpart⟩)
      · exact ⟨hb, by omega, hpart⟩
      · exact ⟨hb, by omega, hpart⟩
  rw [hsplit, Finset.card_union_of_disjoint]
  · congr 1
    split_ifs with hpart
    · rw [Call.popCount_mask (m.ok t) m.lt hlow hhigh, Finset.filter_true_of_mem]
      intro b hb
      rw [(Finset.mem_filter.mp hb).2]
      exact hpart
    · rw [Finset.card_eq_zero, Finset.filter_eq_empty_iff]
      intro b hb
      rw [(Finset.mem_filter.mp hb).2]
      exact hpart
  · rw [Finset.disjoint_left]
    intro b hb hb'
    have h1 := (Finset.mem_filter.mp hb).2.1
    have h2 := (Finset.mem_filter.mp (Finset.mem_filter.mp hb').1).2
    omega

/-- Counting a word: its ones go into the counter of its part. -/
theorem Inv.count (h : Inv m s) {idx : Nat} {p : Pc} (hlow : (m.call t).head ≤ idx)
    (hhigh : idx ≤ (m.call t).last) (hok : p.Ok (m.call t))
    (hor : orFront (m.call t) p = orFront (m.call t) (s.pc t))
    (hadd : addFront (m.call t) (s.pc t) = idx) (hadd' : addFront (m.call t) p = idx + 1)
    (hlive : liveDone p = liveDone (s.pc t)) (hlost : p ≠ .returned true) :
    Inv m ({ s with bitmap := withCount s.bitmap m.regionSize (m.call t) idx }.goto t p) := by
  have hfronts := front_goto (s := s) (b := withCount s.bitmap m.regionSize (m.call t) idx)
    orFront hor
  refine h.of_same_or rfl rfl (pcOk_goto h.pc hok) hfronts
    (lost_goto h.lost fun hp => absurd hp hlost) ?_ ?_
  · intro part
    have hsum := sum_change (f := fun u => (counted m (m.call u)
        (addFront (m.call u) (s.pc u)) part).card)
      (g := fun u => (counted m (m.call u) (addFront (m.call u)
        (({ s with bitmap := withCount s.bitmap m.regionSize (m.call t) idx }.goto t p).pc u))
        part).card) t (fun u hu => by simp only [goto_of_ne hu]) (by
          simp only [goto_self, hadd, hadd']
          exact card_counted_succ hlow hhigh part)
    have hlt := sum_counted_le (m := m)
      ({ s with bitmap := withCount s.bitmap m.regionSize (m.call t) idx }.goto t p).pc
      (fun u v huv hu hv => by
        unfold Won at hu hv
        rw [hfronts] at hu hv
        exact h.winner u v huv hu hv) part
    rw [hsum] at hlt ⊢
    rw [← h.parts part] at hlt ⊢
    show Function.update s.bitmap.partLiveBytes (idx / partDivisor m.regionSize) _ part = _
    by_cases hpart : idx / partDivisor m.regionSize = part
    · subst hpart
      rw [if_pos rfl] at hlt ⊢
      rw [Function.update_self, Words.add_eq hlt]
    · rw [if_neg hpart, Nat.add_zero, Function.update_of_ne (Ne.symm hpart)]
  · exact h.live_goto hlive

/-- Adding an object to the live bytes. -/
theorem Inv.liveBytes (h : Inv m s) {p : Pc} (hpc : s.pc t = .addLive) (hok : p.Ok (m.call t))
    (hor : orFront (m.call t) p = orFront (m.call t) (s.pc t))
    (hadd : addFront (m.call t) p = addFront (m.call t) (s.pc t))
    (hlive : liveDone p = true) (hlost : p ≠ .returned true) :
    Inv m ({ s with bitmap := s.bitmap.fetchAddLive (m.call t).byteCnt }.goto t p) := by
  have hfronts := front_goto (s := s) (b := s.bitmap.fetchAddLive (m.call t).byteCnt) orFront hor
  have hoks := pcOk_goto (b := s.bitmap.fetchAddLive (m.call t).byteCnt) h.pc hok
  refine h.of_same_or rfl rfl hoks hfronts (lost_goto h.lost fun hp => absurd hp hlost) ?_ ?_
  · exact h.parts_goto hadd
  · have hsum := sum_change (f := fun u => liveSize (m.call u) (s.pc u))
      (g := fun u => liveSize (m.call u)
        (({ s with bitmap := s.bitmap.fetchAddLive (m.call t).byteCnt }.goto t p).pc u)) t
      (d := (m.call t).byteCnt) (fun u hu => by simp only [goto_of_ne hu]) (by
        simp only [goto_self, hpc]
        unfold liveSize
        rw [hlive, if_pos rfl]
        exact (Nat.zero_add _).symm)
    have hlt := sum_live_lt hoks fun u v huv hu hv => by
      unfold Won at hu hv
      rw [hfronts] at hu hv
      exact h.winner u v huv hu hv
    rw [hsum, ← h.live] at hlt
    rw [hsum, ← h.live]
    exact Words.add_eq hlt

omit [Fintype τ] [DecidableEq τ] in
/-- A word that gets a mask. -/
theorem testBit_withMask (b : RegionBitmap) (c : Call) (idx i : Nat) :
    ((withMask b c idx).words (i / 64)).testBit (i % 64) = true ↔
      (b.words (i / 64)).testBit (i % 64) = true ∨
        i / 64 = idx ∧ (c.mask idx).testBit (i % 64) = true := by
  simp only [withMask]
  by_cases hi : i / 64 = idx
  · rw [hi, Function.update_self, Nat.testBit_or, Bool.or_eq_true]
    simp
  · rw [Function.update_of_ne hi]
    simp [hi]

omit [Fintype τ] [DecidableEq τ] in
/-- A word of marks has 64 bits, also after a mark. -/
theorem withMask_lt {b : RegionBitmap} (h : ∀ i, b.words i < 2 ^ 64) (t : τ) (idx i : Nat) :
    (withMask b (m.call t) idx).words i < 2 ^ 64 := by
  simp only [withMask]
  by_cases hi : i = idx
  · subst hi
    rw [Function.update_self]
    exact Nat.or_lt_two_pow (h i) (Call.mask_lt (m.ok t) m.lt i)
  · rw [Function.update_of_ne hi]
    exact h i

omit [DecidableEq τ] in
/-- While call `t` puts its masks in, a winner other than `t` has another object: it would have set
    the first bit of this one. -/
theorem Inv.not_won_other (h : Inv m s) {idx : Nat} (hlow : (m.call t).head ≤ idx)
    (hor : orFront (m.call t) (s.pc t) = idx)
    (hwin : idx = (m.call t).head → s.bitmap.words idx &&& (m.call t).mask idx = 0) {u : τ}
    (hut : u ≠ t) (hcall : m.call u = m.call t) : ¬ Won (m.call u) (s.pc u) := by
  intro hu
  by_cases hhead : idx = (m.call t).head
  · obtain ⟨hfirst, hword⟩ := Call.first_mem (m.ok t) m.lt
    have hset := (h.words ((m.call t).start / 8)).mpr ⟨u, by rw [hcall]; exact hfirst, by
      unfold Won at hu
      rw [hcall] at hu ⊢
      rw [hword]
      exact hu⟩
    have hdm := Nat.div_add_mod ((m.call t).start / 8) 64
    have hmask := (Call.mask_testBit (m.ok t) m.lt (Nat.le_refl _) (Nat.le_add_right _ _)
      (Nat.mod_lt ((m.call t).start / 8) (show 64 > 0 by decide))).mpr (by
        rw [← hword, hdm]
        exact hfirst)
    rw [hword] at hset
    have hzero := congrArg (fun n => n.testBit ((m.call t).start / 8 % 64)) (hwin hhead)
    simp only [Nat.testBit_and, hhead, hset, hmask, Bool.and_self, Nat.zero_testBit] at hzero
    exact absurd hzero (by decide)
  · refine hut (h.winner u t hcall hu ?_)
    unfold Won
    rw [hor]
    omega

/-- Putting in the mask of a word. -/
theorem Inv.mark (h : Inv m s) {idx : Nat} {p : Pc} (hlow : (m.call t).head ≤ idx)
    (hhigh : idx ≤ (m.call t).last) (hok : p.Ok (m.call t))
    (hor : orFront (m.call t) (s.pc t) = idx) (hor' : orFront (m.call t) p = idx + 1)
    (hadd : addFront (m.call t) p = addFront (m.call t) (s.pc t))
    (hlive : liveDone p = liveDone (s.pc t)) (hlost : p ≠ .returned true)
    (hwin : idx = (m.call t).head → s.bitmap.words idx &&& (m.call t).mask idx = 0) :
    Inv m ({ s with bitmap := withMask s.bitmap (m.call t) idx }.goto t p) := by
  -- winners stay winners
  have hwon : ∀ u, u ≠ t → (Won (m.call u)
      (({ s with bitmap := withMask s.bitmap (m.call t) idx }.goto t p).pc u) ↔
        Won (m.call u) (s.pc u)) := fun u hu => by rw [goto_of_ne hu]
  have hstays : ∀ u, Won (m.call u) (s.pc u) → Won (m.call u)
      (({ s with bitmap := withMask s.bitmap (m.call t) idx }.goto t p).pc u) := by
    intro u hu
    by_cases hut : u = t
    · subst hut
      unfold Won
      rw [goto_self, hor']
      omega
    · exact (hwon u hut).mpr hu
  have hother : ∀ u, u ≠ t → m.call u = m.call t → ¬ Won (m.call u) (s.pc u) :=
    fun u hut hcall => h.not_won_other hlow hor hwin hut hcall
  refine ⟨h.wordCnt, withMask_lt h.wordLt t idx, pcOk_goto h.pc hok, ?_, ?_, ?_, ?_, ?_⟩
  · intro b
    show ((withMask s.bitmap (m.call t) idx).words (b / 64)).testBit (b % 64) = true ↔ _
    rw [testBit_withMask, h.words b]
    constructor
    · rintro (⟨u, hu, hfront⟩ | ⟨hword, hbit⟩)
      · refine ⟨u, hu, ?_⟩
        by_cases hut : u = t
        · subst hut
          rw [goto_self, hor']
          omega
        · rw [goto_of_ne hut]
          exact hfront
      · refine ⟨t, ?_, by rw [goto_self, hor']; omega⟩
        have := (Call.mask_testBit (m.ok t) m.lt hlow hhigh (Nat.mod_lt b (by decide))).mp hbit
        rwa [← hword, Nat.div_add_mod] at this
    · rintro ⟨u, hu, hfront⟩
      by_cases hut : u = t
      · subst hut
        rw [goto_self, hor'] at hfront
        rcases Nat.lt_succ_iff_lt_or_eq.mp hfront with hlt | heq
        · exact Or.inl ⟨u, hu, by omega⟩
        · refine Or.inr ⟨heq, ?_⟩
          rw [Call.mask_testBit (m.ok u) m.lt hlow hhigh (Nat.mod_lt b (by decide)), ← heq,
            Nat.div_add_mod]
          exact hu
      · rw [goto_of_ne hut] at hfront
        exact Or.inl ⟨u, hu, hfront⟩
  · intro u v huv hu hv
    by_cases hut : u = t
    · by_cases hvt : v = t
      · rw [hut, hvt]
      · subst hut
        exact absurd ((hwon v hvt).mp hv) (hother v hvt huv.symm)
    · by_cases hvt : v = t
      · subst hvt
        exact absurd ((hwon u hut).mp hu) (hother u hut huv)
      · exact h.winner u v huv ((hwon u hut).mp hu) ((hwon v hvt).mp hv)
  · intro u hu
    obtain ⟨v, hv, hwonv⟩ := lost_goto h.lost (fun hp => absurd hp hlost) u hu
    exact ⟨v, hv, hstays v hwonv⟩
  · exact h.parts_goto hadd
  · exact h.live_goto hlive

omit [DecidableEq τ] in
/-- The head mask of an object that was marked: the words do not change. -/
theorem Inv.withMask_marked (h : Inv m s)
    (hold : s.bitmap.words (m.call t).head &&& (m.call t).mask (m.call t).head ≠ 0) :
    withMask s.bitmap (m.call t) (m.call t).head = s.bitmap := by
  obtain ⟨u, hcall, hwon⟩ := h.winner_of_marked hold
  have hor : s.bitmap.words (m.call t).head ||| (m.call t).mask (m.call t).head =
      s.bitmap.words (m.call t).head := by
    refine Nat.eq_of_testBit_eq fun i => ?_
    rw [Nat.testBit_or]
    cases hbit : ((m.call t).mask (m.call t).head).testBit i with
    | false => rw [Bool.or_false]
    | true =>
      have hi : i < 64 := by
        by_contra hge
        have := Nat.testBit_lt_two_pow (Nat.lt_of_lt_of_le
          (Call.mask_lt (m.ok t) m.lt (m.call t).head)
          (Nat.pow_le_pow_right (by decide) (Nat.le_of_not_lt hge)))
        rw [this] at hbit
        exact absurd hbit (by decide)
      have hmem := (Call.mask_testBit (m.ok t) m.lt (Nat.le_refl _)
        (Nat.le_add_right _ _) hi).mp hbit
      have hword : (64 * (m.call t).head + i) / 64 = (m.call t).head := by omega
      have hmod : (64 * (m.call t).head + i) % 64 = i := by omega
      have hset := (h.words (64 * (m.call t).head + i)).mpr ⟨u, by rw [hcall]; exact hmem, by
        rw [hword, ← hcall]
        exact hwon⟩
      rw [hword, hmod] at hset
      rw [hset, Bool.or_true]
  unfold withMask
  rw [hor, Function.update_eq_self]

/-- **One atomic operation keeps the invariant.**  Only the fetch-or on the word of the head bit can
    make a winner; the other operations put in what a winner still owes. -/
theorem Inv.step {s' : State τ} (h : Inv m s) (hstep : Step m s t s') : Inv m s' := by
  cases hstep with
  | quiet p hok hor hadd hlive hlost => exact h.quiet hok hor hadd hlive hlost
  | lose hpc hold =>
    rw [h.withMask_marked hold]
    exact h.quiet (p := .returned true) trivial (by rw [hpc]; rfl) (by rw [hpc]; rfl)
      (by rw [hpc]; rfl) fun _ => Or.inr hold
  | mark idx p hlow hhigh hok hor hor' hadd hlive hlost hwin =>
    exact h.mark hlow hhigh hok hor hor' hadd hlive hlost hwin
  | count idx p hlow hhigh hok hor hadd hadd' hlive hlost =>
    exact h.count hlow hhigh hok hor hadd hadd' hlive hlost
  | live p hpc hok hor hadd hlive hlost => exact h.liveBytes hpc hok hor hadd hlive hlost

end Steps

/-! ## Every run -/

variable [DecidableEq τ]

omit [DecidableEq τ] in
/-- A bitmap without marks, before any thread has begun. -/
theorem inv_init {s : State τ} (hbitmap : s.bitmap = construct m.regionSize)
    (hpc : ∀ t, s.pc t = .load) : Inv m s where
  wordCnt := by rw [hbitmap]; rfl
  wordLt := fun i => by rw [hbitmap]; exact Nat.two_pow_pos 64
  pc := fun t => by rw [hpc t]; trivial
  words := by
    intro b
    rw [hbitmap]
    simp only [construct, Nat.zero_testBit, Bool.false_eq_true, false_iff]
    rintro ⟨t, hb, hfront⟩
    rw [hpc t] at hfront
    have := (Call.word_mem (m.ok t) m.lt hb).1
    simp only [orFront] at hfront
    omega
  winner := by
    intro t u _ ht
    unfold Won at ht
    rw [hpc t] at ht
    exact absurd ht (Nat.lt_irrefl _)
  lost := by
    intro t ht
    rw [hpc t] at ht
    cases ht
  parts := by
    intro p
    rw [hbitmap, Finset.sum_eq_zero]
    · rfl
    · intro t _
      rw [hpc t, Finset.card_eq_zero]
      refine Finset.filter_eq_empty_iff.mpr fun b hb hfront => ?_
      have := (Call.word_mem (m.ok t) m.lt hb).1
      have := hfront.1
      simp only [addFront] at this
      omega
  live := by
    rw [hbitmap, Finset.sum_eq_zero]
    · rfl
    · intro t _
      rw [hpc t]
      rfl

/-- The calls of a marking, every order of their atomic operations. -/
abbrev marking (m : Marking τ) : System (State τ) τ := machine m.regionSize m.call

/-- The invariant holds in every run, whatever order the operations of the threads take. -/
theorem inv_invariant (m : Marking τ) : (marking m).Invariant (Inv m) where
  init s hs := inv_init hs.1 hs.2
  step s t s' h hstep := by
    obtain ⟨s'', hs'', hdid⟩ := exec_step h.wordCnt t (h.pc t)
    obtain rfl : s'' = s' := Except.ok.inj (hs''.symm.trans hstep)
    exact h.step hdid

/-! ## When all calls have returned -/

omit [Fintype τ] [DecidableEq τ] in
/-- The loop of `RegionBitmapRecomputeLiveBytes` counts the ones of the words it has passed. -/
theorem recomputeLoop_eq {b : RegionBitmap} (hlt : ∀ i, b.words i < 2 ^ 64)
    (hcnt : 64 * b.wordCnt < 2 ^ 64) (todo : Nat) :
    ∀ index, index + todo = b.wordCnt →
      b.recomputeLoop todo index (ones 64 b.words (64 * index)).card =
        .ok (ones 64 b.words (64 * b.wordCnt)).card := by
  induction todo with
  | zero =>
    intro index hindex
    rw [← hindex]
    rfl
  | succ todo ih =>
    intro index hindex
    have hsucc := card_ones_succ (show 0 < 64 by decide) b.words index
    have hle := Finset.card_filter_le (Finset.range (64 * (index + 1)))
      fun i => (b.words (i / 64)).testBit (i % 64) = true
    rw [Finset.card_range, ← ones, hsucc] at hle
    unfold recomputeLoop loadWord
    rw [if_pos (by omega)]
    simp only [bind, Except.bind]
    rw [popCount_eq (hlt index), Words.add_eq (by omega), ← hsucc]
    exact ih (index + 1) (by omega)

/-- What marking is for: every object is marked once, by one call; the bitmap holds exactly the
    marked objects; and the three accountings agree. -/
structure Exact (m : Marking τ) (s : State τ) : Prop where
  firstMarker : ∀ t, ∃! u, m.call u = m.call t ∧ s.pc u = .returned false
  isMarked : ∀ offset, offset % 8 = 0 → offset < m.regionSize →
    s.bitmap.isMarked offset = .ok (decide (∃ t,
      (m.call t).start ≤ offset ∧ offset < (m.call t).start + (m.call t).byteCnt))
  liveBytes : s.bitmap.getLiveBytes = ∑ c ∈ Finset.univ.image m.call, c.byteCnt
  recomputed : s.bitmap.recomputeLiveBytes = .ok s.bitmap.getLiveBytes
  parts : ∀ p < PART_COUNT, s.bitmap.partLiveBytes p =
    ∑ i ∈ (Finset.range (wordCount m.regionSize)).filter (· / partDivisor m.regionSize = p),
      Bits.count 64 (s.bitmap.words i)

section Returned

variable {s : State τ}

omit [DecidableEq τ] in
/-- Every object has the one winner, which returned false. -/
theorem Inv.existsUnique (h : Inv m s) (hret : ∀ t, ∃ r, s.pc t = .returned r) (t : τ) :
    ∃! u, m.call u = m.call t ∧ s.pc u = .returned false := by
  have hwon : ∀ u, s.pc u = .returned false → Won (m.call u) (s.pc u) := by
    intro u hu
    rw [hu]
    exact Nat.lt_succ_of_le (Nat.le_add_right _ _)
  have hwinner : ∃ u, m.call u = m.call t ∧ s.pc u = .returned false := by
    obtain ⟨r, hr⟩ := hret t
    cases r with
    | false => exact ⟨t, rfl, hr⟩
    | true =>
      obtain ⟨u, hcall, hu⟩ := h.lost t hr
      obtain ⟨r', hr'⟩ := hret u
      cases r' with
      | false => exact ⟨u, hcall, hr'⟩
      | true =>
        rw [hr'] at hu
        exact absurd hu (Nat.lt_irrefl _)
  obtain ⟨u, hcall, hu⟩ := hwinner
  refine ⟨u, ⟨hcall, hu⟩, fun v hv => ?_⟩
  exact h.winner v u (hv.1.trans hcall.symm) (hwon v hv.2) (hwon u hu)

omit [DecidableEq τ] in
/-- The bitmap holds the bits of the objects. -/
theorem Inv.set_iff (h : Inv m s) (hret : ∀ t, ∃ r, s.pc t = .returned r) (b : Nat) :
    (s.bitmap.words (b / 64)).testBit (b % 64) = true ↔ ∃ t, b ∈ (m.call t).bits := by
  rw [h.words b]
  constructor
  · rintro ⟨t, hb, -⟩
    exact ⟨t, hb⟩
  · rintro ⟨t, hb⟩
    obtain ⟨u, ⟨hcall, hu⟩, -⟩ := h.existsUnique hret t
    rw [← hcall] at hb
    refine ⟨u, hb, ?_⟩
    rw [hu]
    exact Nat.lt_succ_of_le (Call.word_mem (m.ok u) m.lt hb).2

omit [DecidableEq τ] in
/-- When all threads have returned, the marks are those of all objects. -/
theorem Inv.ones_eq (h : Inv m s) (hret : ∀ t, ∃ r, s.pc t = .returned r) :
    ones 64 s.bitmap.words (64 * wordCount m.regionSize) =
      Finset.univ.biUnion fun t => (m.call t).bits := by
  ext b
  rw [mem_ones, h.set_iff hret, Finset.mem_biUnion]
  constructor
  · rintro ⟨-, t, hb⟩
    exact ⟨t, Finset.mem_univ t, hb⟩
  · rintro ⟨t, -, hb⟩
    have hword := (Call.word_mem (m.ok t) m.lt hb).2
    have hlast := Call.last_lt (m.ok t) m.lt m.page
    exact ⟨by omega, t, hb⟩

omit [DecidableEq τ] in
/-- The distinct objects have as many bits as the bitmap has ones. -/
theorem sum_objects (m : Marking τ) :
    ∑ c ∈ Finset.univ.image m.call, c.byteCnt =
      (Finset.univ.biUnion fun t => (m.call t).bits).card * 8 := by
  have hsize : ∀ c ∈ Finset.univ.image m.call, c.byteCnt = c.bits.card * 8 := by
    intro c hc
    obtain ⟨t, -, rfl⟩ := Finset.mem_image.mp hc
    exact (Call.card_bits (m.ok t)).symm
  rw [Finset.sum_congr rfl hsize, ← Finset.sum_mul, ← Finset.card_biUnion, Finset.image_biUnion]
  intro c hc d hd hcd
  obtain ⟨t, -, rfl⟩ := Finset.mem_image.mp hc
  obtain ⟨u, -, rfl⟩ := Finset.mem_image.mp hd
  exact Finset.disjoint_left.mpr fun b hb hb' => hcd (m.call_eq hb hb')

omit [DecidableEq τ] in
/-- The live bytes are eight times the number of ones. -/
theorem Inv.liveBytes_eq (h : Inv m s) (hret : ∀ t, ∃ r, s.pc t = .returned r) :
    s.bitmap.liveBytes = (ones 64 s.bitmap.words (64 * wordCount m.regionSize)).card * 8 := by
  have hsize : ∀ t, liveSize (m.call t) (s.pc t) =
      (if liveDone (s.pc t) then (m.call t).bits else ∅).card * 8 := by
    intro t
    unfold liveSize
    split_ifs
    · exact (Call.card_bits (m.ok t)).symm
    · rfl
  rw [h.live, Finset.sum_congr rfl fun t _ => hsize t, ← Finset.sum_mul, h.ones_eq hret,
    sum_card_eq h.winner fun t => if liveDone (s.pc t) then (m.call t).bits else ∅]
  · congr 2
    ext b
    simp only [Finset.mem_biUnion, Finset.mem_univ, true_and]
    constructor
    · rintro ⟨t, hb⟩
      split_ifs at hb
      · exact ⟨t, hb⟩
      · exact absurd hb (Finset.notMem_empty b)
    · rintro ⟨t, hb⟩
      obtain ⟨u, ⟨hcall, hu⟩, -⟩ := h.existsUnique hret t
      refine ⟨u, ?_⟩
      rw [hu, if_pos (show liveDone (.returned false) = true from rfl), hcall]
      exact hb
  · intro t
    split_ifs
    · exact subset_rfl
    · exact Finset.empty_subset _
  · intro t b hb
    split_ifs at hb with hlive
    · exact won_of_live (h.pc t) hlive
    · exact absurd hb (Finset.notMem_empty b)

omit [DecidableEq τ] in
/-- A part counter is the number of ones in the words of the part. -/
theorem Inv.parts_eq (h : Inv m s) (hret : ∀ t, ∃ r, s.pc t = .returned r) (p : Nat) :
    s.bitmap.partLiveBytes p =
      ∑ i ∈ (Finset.range (wordCount m.regionSize)).filter (· / partDivisor m.regionSize = p),
        Bits.count 64 (s.bitmap.words i) := by
  rw [sum_count_eq_card (by decide), h.ones_eq hret, h.parts p,
    sum_card_eq h.winner fun t => counted m (m.call t) (addFront (m.call t) (s.pc t)) p]
  · congr 1
    ext b
    simp only [Finset.mem_biUnion, Finset.mem_univ, true_and, counted, Finset.mem_filter]
    constructor
    · rintro ⟨t, hb, -, hpart⟩
      exact ⟨⟨t, hb⟩, hpart⟩
    · rintro ⟨⟨t, hb⟩, hpart⟩
      obtain ⟨u, ⟨hcall, hu⟩, -⟩ := h.existsUnique hret t
      rw [← hcall] at hb
      refine ⟨u, hb, ?_, hpart⟩
      rw [hu]
      exact Nat.lt_succ_of_le (Call.word_mem (m.ok u) m.lt hb).2
  · intro t
    exact Finset.filter_subset _ _
  · intro t b hb
    obtain ⟨hbits, hfront, -⟩ := Finset.mem_filter.mp hb
    have hhead := (Call.word_mem (m.ok t) m.lt hbits).1
    have := addFront_le (m.call t) (s.pc t)
    unfold Won
    omega

omit [DecidableEq τ] in
/-- Then an address is marked if it lies in one of the objects. -/
theorem Inv.isMarked_eq (h : Inv m s) (hret : ∀ t, ∃ r, s.pc t = .returned r) {offset : Nat}
    (haligned : offset % 8 = 0) (hlt : offset < m.regionSize) :
    s.bitmap.isMarked offset = .ok (decide (∃ t,
      (m.call t).start ≤ offset ∧ offset < (m.call t).start + (m.call t).byteCnt)) := by
  have hword : offset / 8 / 64 < s.bitmap.wordCnt := by
    have := m.page
    rw [h.wordCnt]
    simp only [wordCount, MARKED_BYTES_PER_BIT, BITS_PER_WORD]
    omega
  have hset := h.set_iff hret (offset / 8)
  have hobject : (∃ t, offset / 8 ∈ (m.call t).bits) ↔
      ∃ t, (m.call t).start ≤ offset ∧ offset < (m.call t).start + (m.call t).byteCnt := by
    refine exists_congr fun t => ?_
    have hstart := (m.ok t).start
    have hsize := (m.ok t).size
    simp only [MARKED_BYTES_PER_BIT] at hstart hsize
    rw [Call.mem_bits]
    omega
  unfold isMarked loadWord
  simp only [MARKED_BYTES_PER_BIT, BITS_PER_WORD]
  rw [if_pos hword]
  simp only [bind, Except.bind]
  rw [shl_one (Nat.mod_lt _ (by decide)), Nat.and_two_pow]
  by_cases hbit : (s.bitmap.words (offset / 8 / 64)).testBit (offset / 8 % 64) = true
  · rw [decide_eq_true (hobject.mp (hset.mp hbit)), hbit]
    simp
  · rw [decide_eq_false fun hin => hbit (hset.mpr (hobject.mpr hin)), Bool.eq_false_iff.mpr hbit]
    simp

omit [DecidableEq τ] in
/-- And the counts are those of the marks. -/
theorem Inv.exact (h : Inv m s) (hret : ∀ t, ∃ r, s.pc t = .returned r) : Exact m s where
  firstMarker := h.existsUnique hret
  isMarked := fun offset haligned hlt => h.isMarked_eq hret haligned hlt
  liveBytes := by
    rw [sum_objects, ← h.ones_eq hret]
    exact h.liveBytes_eq hret
  recomputed := by
    have hcnt : 64 * s.bitmap.wordCnt ≤ m.regionSize / 8 := by
      rw [h.wordCnt]
      simp only [wordCount, MARKED_BYTES_PER_BIT, BITS_PER_WORD]
      omega
    have hlt := m.lt
    have hloop := recomputeLoop_eq h.wordLt (by omega) s.bitmap.wordCnt 0 (Nat.zero_add _)
    have hle := Finset.card_filter_le (Finset.range (64 * s.bitmap.wordCnt))
      fun i => (s.bitmap.words (i / 64)).testBit (i % 64) = true
    rw [Finset.card_range, ← ones] at hle
    unfold recomputeLiveBytes getLiveBytes
    have hloop' : s.bitmap.recomputeLoop s.bitmap.wordCnt 0 0 =
        .ok (ones 64 s.bitmap.words (64 * s.bitmap.wordCnt)).card := hloop
    rw [hloop']
    simp only [bind, Except.bind]
    rw [Words.mul_eq (by simp only [MARKED_BYTES_PER_BIT]; omega), h.liveBytes_eq hret, h.wordCnt]
  parts := fun p _ => h.parts_eq hret p

end Returned

/-- **Marking is exact.**  In every state that any interleaving of the calls reaches, no next
    operation of a call is out of bounds; when all calls have returned, the marking is exact. -/
theorem reachable_marks {s : State τ} (h : (marking m).Reachable s) :
    (∀ t, ∃ s', exec m.regionSize m.call s t = .ok s') ∧
      ((∀ t, ∃ r, s.pc t = .returned r) → Exact m s) := by
  have hinv := (inv_invariant m).reachable h
  refine ⟨fun t => ?_, hinv.exact⟩
  obtain ⟨s', hs', -⟩ := exec_step hinv.wordCnt t (hinv.pc t)
  exact ⟨s', hs'⟩

/-- Two calls on one object, whose bits are in three words, and one on the object in front of it, in
    a region of one page. -/
def smallMarking : Marking (Fin 3) where
  regionSize := 4096
  call := fun t => if t = 2 then ⟨0, 16⟩ else ⟨16, 1032⟩
  page := by decide
  nonempty := by decide
  lt := by decide
  partFits := by decide
  ok := by
    intro t
    split
    · exact ⟨by decide, by decide, by decide, by decide⟩
    · exact ⟨by decide, by decide, by decide, by decide⟩
  disjoint := by
    intro t u
    match t, u with
    | 0, 0 | 0, 1 | 1, 0 | 1, 1 | 2, 2 => exact Or.inl rfl
    | 0, 2 | 1, 2 | 2, 0 | 2, 1 =>
      refine Or.inr (Finset.disjoint_left.mpr fun b hb hb' => ?_)
      simp [Finset.mem_Ico] at hb hb'
      omega

/-- The calls of a schedule make their operations one after the other. -/
theorem reachable_schedule {s s' : State (Fin 3)} (h : (marking smallMarking).Reachable s)
    (ts : List (Fin 3)) (hrun : ts.foldlM (exec 4096 smallMarking.call) s = .ok s') :
    (marking smallMarking).Reachable s' := by
  induction ts generalizing s with
  | nil =>
    cases hrun
    exact h
  | cons t ts ih =>
    rw [List.foldlM_cons] at hrun
    cases hexec : exec 4096 smallMarking.call s t with
    | error e =>
      rw [hexec] at hrun
      cases hrun
    | ok s₁ =>
      rw [hexec] at hrun
      exact ih (h.step (e := t) hexec) hrun

/-- Both calls on the object find it unmarked; the second one loses, and the neighbour is marked in
    between. -/
theorem reachable_marks_twice : ∃ s : State (Fin 3), (marking smallMarking).Reachable s ∧
    s.pc 0 = .returned false ∧ s.pc 1 = .returned true ∧ s.pc 2 = .returned false ∧
    (∀ t, ∃ s', exec 4096 smallMarking.call s t = .ok s') ∧ Exact smallMarking s := by
  have hstart : (marking smallMarking).Reachable ⟨construct 4096, fun _ => .load⟩ :=
    .init ⟨rfl, fun _ => rfl⟩
  obtain ⟨s, hrun, hfirst, hsecond, hneighbour⟩ : ∃ s : State (Fin 3),
      [0, 1, 2, 2, 0, 1, 0, 2, 0, 0, 2, 0, 0, 0].foldlM (exec 4096 smallMarking.call)
        ⟨construct 4096, fun _ => .load⟩ = .ok s ∧
      s.pc 0 = .returned false ∧ s.pc 1 = .returned true ∧ s.pc 2 = .returned false :=
    ⟨_, rfl, rfl, rfl, rfl⟩
  have hreach := reachable_schedule hstart _ hrun
  obtain ⟨hinside, hexact⟩ := reachable_marks hreach
  refine ⟨s, hreach, hfirst, hsecond, hneighbour, hinside, hexact fun t => ?_⟩
  match t with
  | 0 => exact ⟨_, hfirst⟩
  | 1 => exact ⟨_, hsecond⟩
  | 2 => exact ⟨_, hneighbour⟩

end MarkBits

end CangjieRuntime.Gc
