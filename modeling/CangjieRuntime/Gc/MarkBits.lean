/-
  Marking is exact under any interleaving of the atomic operations.

  Two numbers say how far a call has got with the words of its object, read off its program
  counter: `orFront`, the first word whose mask it has not put in, and `addFront`, the first word
  it has not counted.  A call that put in its head mask has won its object.

    * what one atomic operation can do is said once (`Step`, `exec_step`);
    * the bits of the bitmap are the bits of the winners below their `orFront`, a part counter is
      the number of winners' bits below their `addFront`, the live bytes are the sizes of the
      winners past that counter (`Inv`);
    * two winners have different objects, because the second one would have found the first bit of
      the object set.
-/
import CangjieRuntime.Gc.BitMask

set_option linter.unusedVariables false

namespace CangjieRuntime.Gc

open Bits Runs

namespace MarkBits

open RegionBitmap

/-! ## Setting -/

/-- A region and the objects that are marked in it, one for each call; two calls have the same
    object or disjoint ones. -/
structure Marking (τ : Type) where
  regionSize : Nat
  call : τ → Call
  page : regionSize % 4096 = 0
  nonempty : 0 < regionSize
  lt : regionSize < 2 ^ 64
  partFits : partDivisor regionSize * 64 < 2 ^ 16
  ok : ∀ t, (call t).Ok regionSize
  disjoint : ∀ t u, call t = call u ∨
    Disjoint (Finset.Ico (call t).start ((call t).start + (call t).byteCnt))
      (Finset.Ico (call u).start ((call u).start + (call u).byteCnt))

variable {τ : Type} {m : Marking τ}

/-- Objects that share a bit are the same. -/
theorem Marking.call_eq (m : Marking τ) {t u : τ} {b : Nat} (ht : b ∈ (m.call t).bits)
    (hu : b ∈ (m.call u).bits) : m.call t = m.call u := by
  refine (m.disjoint t u).resolve_right fun hdisj => ?_
  have hmem : ∀ v, b ∈ (m.call v).bits →
      8 * b ∈ Finset.Ico (m.call v).start ((m.call v).start + (m.call v).byteCnt) := by
    intro v hv
    rw [Call.mem_bits] at hv
    have hstart := (m.ok v).start
    simp only [MARKED_BYTES_PER_BIT] at hstart
    rw [Finset.mem_Ico]
    omega
  exact Finset.disjoint_left.mp hdisj (hmem t ht) (hmem u hu)

theorem Marking.wordCount_pos (m : Marking τ) : 0 < wordCount m.regionSize := by
  have := m.page
  have := m.nonempty
  simp only [wordCount, MARKED_BYTES_PER_BIT, BITS_PER_WORD]
  omega

/-! ## How far a call has got -/

/-- The first word whose mask the call has not put in. -/
def orFront (c : Call) : Pc → Nat
  | .load => c.head
  | .fetchOr => c.head
  | .addPart => c.head + 1
  | .addLive => c.head + 1
  | .tailOr idx => idx
  | .tailAdd idx => idx + 1
  | .lastOr => c.last
  | .lastAdd => c.last + 1
  | .returned isMarked => if isMarked then c.head else c.last + 1

/-- The first word the call has not counted. -/
def addFront (c : Call) : Pc → Nat
  | .load => c.head
  | .fetchOr => c.head
  | .addPart => c.head
  | .addLive => c.head + 1
  | .tailOr idx => idx
  | .tailAdd idx => idx
  | .lastOr => c.last
  | .lastAdd => c.last
  | .returned isMarked => if isMarked then c.head else c.last + 1

/-- The call has added its object to the live bytes. -/
def liveDone : Pc → Bool
  | .load => false
  | .fetchOr => false
  | .addPart => false
  | .addLive => false
  | .returned isMarked => !isMarked
  | _ => true

/-- The loops are inside the object, at a full word or at the last one. -/
def Pc.Ok (c : Call) : Pc → Prop
  | .tailOr idx => c.head < idx ∧ idx ≤ c.last ∧ c.mask idx = UINT64_MAX ∧
    (c.info.lastMaskBits ≠ 0 → idx < c.last)
  | .tailAdd idx => c.head < idx ∧ idx ≤ c.last ∧ c.mask idx = UINT64_MAX ∧
    (c.info.lastMaskBits ≠ 0 → idx < c.last)
  | .lastOr => c.head < c.last ∧ c.mask c.last = c.info.lastMaskBits
  | .lastAdd => c.head < c.last ∧ c.mask c.last = c.info.lastMaskBits
  | _ => True

/-- The call has put in its head mask.  The bits of a mark are put in by a fetch-or, and the call
    whose fetch-or sets its head bit first is the one that marks the object. -/
def Won (c : Call) (pc : Pc) : Prop := c.head < orFront c pc

/-- The loop tests lead to the next word, or to the end. -/
theorem tailPc_spec {c : Call} (hlast : Words.add 64 c.info.headWordIdx c.info.tailWordCnt = c.last)
    {idx : Nat} (hlow : c.head < idx) (hhigh : idx ≤ c.last + 1)
    (hmask : c.info.lastMaskBits ≠ 0 → idx ≤ c.last) :
    Pc.Ok c (tailPc c.info idx) ∧ orFront c (tailPc c.info idx) = idx ∧
      addFront c (tailPc c.info idx) = idx ∧ liveDone (tailPc c.info idx) = true ∧
      tailPc c.info idx ≠ .returned true := by
  unfold tailPc
  simp only [hlast]
  by_cases hzero : c.info.lastMaskBits = 0
  · rw [if_neg (not_not.mpr hzero)]
    by_cases hle : idx ≤ c.last
    · rw [if_pos hle]
      refine ⟨⟨hlow, hle, ?_, fun hne => absurd hzero hne⟩, rfl, rfl, rfl, by simp⟩
      unfold Call.mask
      rw [if_neg (by omega), if_neg (fun h => h.2 hzero)]
    · rw [if_neg hle]
      refine ⟨trivial, ?_, ?_, rfl, by simp⟩
      · simp only [orFront]
        rw [if_neg (by decide)]
        omega
      · simp only [addFront]
        rw [if_neg (by decide)]
        omega
  · rw [if_pos hzero]
    have hle := hmask hzero
    by_cases hlt : idx < c.last
    · rw [if_pos hlt]
      refine ⟨⟨hlow, hle, ?_, fun _ => hlt⟩, rfl, rfl, rfl, by simp⟩
      unfold Call.mask
      rw [if_neg (by omega), if_neg (fun h => by omega)]
    · rw [if_neg hlt]
      have heq : idx = c.last := by omega
      subst heq
      refine ⟨⟨hlow, ?_⟩, rfl, rfl, rfl, by simp⟩
      unfold Call.mask
      rw [if_neg (by omega), if_pos ⟨rfl, hzero⟩]

/-! ## One atomic operation -/

variable [DecidableEq τ]

/-- The words with the mask of word `idx` of an object put in. -/
def withMask (b : RegionBitmap) (c : Call) (idx : Nat) : RegionBitmap :=
  { b with words := Function.update b.words idx (b.words idx ||| c.mask idx) }

/-- The part counters with word `idx` of an object counted. -/
def withCount (b : RegionBitmap) (regionSize : Nat) (c : Call) (idx : Nat) : RegionBitmap :=
  let part := idx / partDivisor regionSize
  let counted := Words.add 16 (b.partLiveBytes part) (popCount (c.mask idx))
  { b with partLiveBytes := Function.update b.partLiveBytes part counted }

/-- What the next atomic operation of call `t` can do; `p` is its new program counter. -/
inductive Step (m : Marking τ) (s : State τ) (t : τ) : State τ → Prop
  /-- Nothing but the program counter changes. -/
  | quiet (p : Pc) (hok : p.Ok (m.call t))
      (hor : orFront (m.call t) p = orFront (m.call t) (s.pc t))
      (hadd : addFront (m.call t) p = addFront (m.call t) (s.pc t))
      (hlive : liveDone p = liveDone (s.pc t))
      (hlost : p = .returned true → s.pc t = .returned true ∨
        s.bitmap.words (m.call t).head &&& (m.call t).mask (m.call t).head ≠ 0) :
      Step m s t (s.goto t p)
  /-- The head mask is put in, but the object was marked. -/
  | lose (hpc : s.pc t = .fetchOr)
      (hold : s.bitmap.words (m.call t).head &&& (m.call t).mask (m.call t).head ≠ 0) :
      Step m s t ({ s with bitmap := withMask s.bitmap (m.call t) (m.call t).head }.goto t
        (.returned true))
  /-- The mask of word `idx` is put in. -/
  | mark (idx : Nat) (p : Pc) (hlow : (m.call t).head ≤ idx) (hhigh : idx ≤ (m.call t).last)
      (hok : p.Ok (m.call t)) (hor : orFront (m.call t) (s.pc t) = idx)
      (hor' : orFront (m.call t) p = idx + 1)
      (hadd : addFront (m.call t) p = addFront (m.call t) (s.pc t))
      (hlive : liveDone p = liveDone (s.pc t)) (hlost : p ≠ .returned true)
      (hwin : idx = (m.call t).head → s.bitmap.words idx &&& (m.call t).mask idx = 0) :
      Step m s t ({ s with bitmap := withMask s.bitmap (m.call t) idx }.goto t p)
  /-- Word `idx` is counted. -/
  | count (idx : Nat) (p : Pc) (hlow : (m.call t).head ≤ idx) (hhigh : idx ≤ (m.call t).last)
      (hok : p.Ok (m.call t)) (hor : orFront (m.call t) p = orFront (m.call t) (s.pc t))
      (hadd : addFront (m.call t) (s.pc t) = idx) (hadd' : addFront (m.call t) p = idx + 1)
      (hlive : liveDone p = liveDone (s.pc t)) (hlost : p ≠ .returned true) :
      Step m s t ({ s with bitmap := withCount s.bitmap m.regionSize (m.call t) idx }.goto t p)
  /-- The object is added to the live bytes. -/
  | live (p : Pc) (hpc : s.pc t = .addLive) (hok : p.Ok (m.call t))
      (hor : orFront (m.call t) p = orFront (m.call t) (s.pc t))
      (hadd : addFront (m.call t) p = addFront (m.call t) (s.pc t))
      (hlive : liveDone p = true) (hlost : p ≠ .returned true) :
      Step m s t ({ s with bitmap := s.bitmap.fetchAddLive (m.call t).byteCnt }.goto t p)

omit [DecidableEq τ] in
theorem Marking.mask_head (m : Marking τ) (t : τ) :
    (m.call t).info.headMaskBits = (m.call t).mask (m.call t).head := by
  unfold Call.mask
  rw [if_pos rfl]

section Access

variable {s : State τ} (t : τ)

omit [DecidableEq τ] in
/-- Words of an object are words of the bitmap. -/
theorem loadWord_eq (hcnt : s.bitmap.wordCnt = wordCount m.regionSize) {idx : Nat}
    (hhigh : idx ≤ (m.call t).last) : s.bitmap.loadWord idx = .ok (s.bitmap.words idx) := by
  have hlast := Call.last_lt (m.ok t) m.lt m.page
  unfold loadWord
  rw [if_pos (by omega)]

omit [DecidableEq τ] in
/-- Words of an object are in one of the sixteen parts, and their counts fit. -/
theorem fetchAddPart_eq {idx : Nat} (hhigh : idx ≤ (m.call t).last) :
    s.bitmap.fetchAddPart (idx / partDivisor m.regionSize)
        (popCount ((m.call t).mask idx) % 2 ^ 16) =
      .ok (withCount s.bitmap m.regionSize (m.call t) idx) := by
  have hlast := Call.last_lt (m.ok t) m.lt m.page
  have hpart := part_lt m.lt (show idx < wordCount m.regionSize by omega)
  have hcount := popCount_le (Call.mask_lt (m.ok t) m.lt idx)
  unfold fetchAddPart loadPart
  rw [if_pos hpart, Nat.mod_eq_of_lt (by omega)]
  rfl

end Access

/-- **One atomic operation.**  It stays inside the bitmap, and does what `Step` says.  The proofs
    about runs use these cases, and so the words of the bitmap appear in one place. -/
theorem exec_step {s : State τ} (hcnt : s.bitmap.wordCnt = wordCount m.regionSize) (t : τ)
    (hok : (s.pc t).Ok (m.call t)) :
    ∃ s', exec m.regionSize m.call s t = .ok s' ∧ Step m s t s' := by
  have hlast := Call.lastWordIdx_eq (m.ok t) m.lt m.page
  have hlt := Call.last_lt (m.ok t) m.lt m.page
  have hhead : (m.call t).head ≤ (m.call t).last := Nat.le_add_right _ _
  have hmask := m.mask_head t
  have hmax : popCount UINT64_MAX = 64 := by decide
  have hsucc : ∀ idx ≤ (m.call t).last, Words.add 64 idx 1 = idx + 1 := by
    intro idx hidx
    simp only [wordCount, MARKED_BYTES_PER_BIT, BITS_PER_WORD] at hlt
    have := m.lt
    exact Words.add_eq (by omega)
  cases hpc : s.pc t with
  | load =>
    simp only [exec, hpc, loadWord_eq t hcnt hhead, bind, Except.bind]
    refine ⟨_, rfl, ?_⟩
    -- a mark that is there already ends the call
    by_cases hold : s.bitmap.words (m.call t).head &&& (m.call t).info.headMaskBits = 0
    · rw [if_neg (not_not.mpr hold)]
      exact .quiet _ trivial (by rw [hpc]; rfl) (by rw [hpc]; rfl) (by rw [hpc]; rfl) (by simp)
    · rw [if_pos hold]
      exact .quiet _ trivial (by rw [hpc]; rfl) (by rw [hpc]; rfl) (by rw [hpc]; rfl)
        fun _ => Or.inr (hmask ▸ hold)
  | fetchOr =>
    simp only [exec, hpc, fetchOrWord, loadWord_eq t hcnt hhead, bind, Except.bind]
    refine ⟨_, rfl, ?_⟩
    rw [hmask]
    -- another thread may have been first in between
    by_cases hold : s.bitmap.words (m.call t).head &&& (m.call t).mask (m.call t).head = 0
    · rw [if_neg (not_not.mpr hold)]
      exact .mark _ .addPart (Nat.le_refl _) hhead trivial (by rw [hpc]; rfl) rfl (by rw [hpc]; rfl)
        (by rw [hpc]; rfl) (by simp) fun _ => hold
    · rw [if_pos hold]
      exact .lose hpc hold
  | addPart =>
    have hpart := fetchAddPart_eq (s := s) (m := m) t hhead
    rw [← hmask] at hpart
    simp only [exec, hpc, hpart, bind, Except.bind]
    exact ⟨_, rfl, .count _ .addLive (Nat.le_refl _) hhead trivial (by rw [hpc]; rfl)
      (by rw [hpc]; rfl) rfl (by rw [hpc]; rfl) (by simp)⟩
  | addLive =>
    simp only [exec, hpc]
    refine ⟨_, rfl, ?_⟩
    -- one word is done here; more words go on with the tail
    by_cases htail : 0 < (m.call t).info.tailWordCnt
    · rw [if_pos htail, hsucc _ hhead]
      have hlastHead : (m.call t).head + 1 ≤ (m.call t).last := Nat.add_le_add_left htail _
      obtain ⟨h1, h2, h3, h4, h5⟩ := tailPc_spec hlast (Nat.lt_succ_self _)
        (Nat.le_succ_of_le hlastHead) fun _ => hlastHead
      exact .live _ hpc h1 (by rw [hpc]; exact h2) (by rw [hpc]; exact h3) h4 h5
    · rw [if_neg htail]
      have heq : (m.call t).last = (m.call t).head := by
        unfold Call.last
        rw [Nat.eq_zero_of_not_pos htail]
        rfl
      exact .live _ hpc trivial (by rw [hpc]; exact congrArg (· + 1) heq)
        (by rw [hpc]; exact congrArg (· + 1) heq) rfl (by simp)
  | tailOr idx =>
    rw [hpc] at hok
    obtain ⟨h1, h2, h3, h4⟩ := hok
    simp only [exec, hpc, fetchOrWord, loadWord_eq t hcnt h2, bind, Except.bind]
    refine ⟨_, rfl, ?_⟩
    rw [← h3]
    exact .mark idx (.tailAdd idx) (Nat.le_of_lt h1) h2 ⟨h1, h2, h3, h4⟩ (by rw [hpc]; rfl) rfl
      (by rw [hpc]; rfl) (by rw [hpc]; rfl) (by simp) fun heq => by omega
  | tailAdd idx =>
    rw [hpc] at hok
    obtain ⟨h1, h2, h3, h4⟩ := hok
    have hpart := fetchAddPart_eq (s := s) (m := m) t h2
    rw [h3, hmax, show 64 % 2 ^ 16 = 64 from rfl] at hpart
    obtain ⟨p1, p2, p3, p4, p5⟩ := tailPc_spec hlast (show (m.call t).head < idx + 1 by omega)
      (by omega) fun hne => h4 hne
    simp only [exec, hpc, hpart, bind, Except.bind, hsucc _ h2]
    exact ⟨_, rfl, .count idx _ (Nat.le_of_lt h1) h2 p1 (by rw [hpc]; exact p2) (by rw [hpc]; rfl)
      p3 (by rw [hpc]; exact p4) p5⟩
  | lastOr =>
    rw [hpc] at hok
    obtain ⟨h1, h2⟩ := hok
    simp only [exec, hpc, fetchOrWord, hlast, loadWord_eq t hcnt (Nat.le_refl _), bind, Except.bind]
    refine ⟨_, rfl, ?_⟩
    rw [← h2]
    exact .mark _ .lastAdd (Nat.le_of_lt h1) (Nat.le_refl _) ⟨h1, h2⟩ (by rw [hpc]; rfl) rfl
      (by rw [hpc]; rfl) (by rw [hpc]; rfl) (by simp) fun heq => by omega
  | lastAdd =>
    rw [hpc] at hok
    obtain ⟨h1, h2⟩ := hok
    have hpart := fetchAddPart_eq (s := s) (m := m) t (Nat.le_refl _)
    rw [h2] at hpart
    simp only [exec, hpc, hlast, hpart, bind, Except.bind]
    exact ⟨_, rfl, .count _ _ (Nat.le_of_lt h1) (Nat.le_refl _) trivial (by rw [hpc]; rfl)
      (by rw [hpc]; rfl) rfl (by rw [hpc]; rfl) (by simp)⟩
  | returned isMarked =>
    -- after its return a thread does nothing
    simp only [exec, hpc]
    have hstay : s.goto t (s.pc t) = s := by
      unfold State.goto
      rw [Function.update_eq_self]
    have hstep : Step m s t (s.goto t (s.pc t)) := .quiet _ hok rfl rfl rfl fun h => Or.inl h
    rw [hstay] at hstep
    exact ⟨s, rfl, hstep⟩

end MarkBits

end CangjieRuntime.Gc
