/-
  Mutual exclusion of the reader-writer lock.

  The invariant ties the counter to what the threads have (`Inv`): either one write hold, no read
  hold and -1, or no write hold and the number of read holds.  A stale `count` does no harm, because
  the compare-and-swap goes through only if it is the current value again, and it is never -1.

  The counter has 32 bits, and a thread that reads may take the lock again.  The calls of `lawful`
  leave room in the counter for every read hold they lead to; without that, one thread wraps it
  (`recursion_wraps`).
-/
import CangjieRuntime.Base.RwLock

set_option linter.unusedVariables false

namespace CangjieRuntime.Base

open Runs

namespace RwLock

/-- What holds of a thread at a program counter: a count that goes into a compare-and-swap is not
    that of a writer, and a mode that is being released is one the thread has. -/
def Pc.Ok (hold : Hold) : Pc → Prop
  | .readCas _ count => count ≠ WRITE_LOCKED
  | .unlockRead => 0 < hold.reads
  | .unlockWriteLoad => 0 < hold.writes
  | .unlockWriteStore => 0 < hold.writes
  | _ => True

variable {τ : Type} [Fintype τ]

/-- One write hold and no read hold, or read holds only, with the counter to match. -/
def Counted (s : State τ) : Prop :=
  (s.lockCount = WRITE_LOCKED ∧ s.writeHolds = 1 ∧ s.readHolds = 0) ∨
    (s.lockCount = s.readHolds ∧ s.writeHolds = 0)

/-- What each thread in an operation knows, the counter of the holds, and room for the reads in
    progress, so that no further one wraps it. -/
structure Inv (s : State τ) : Prop where
  pc : ∀ t, (s.pc t).Ok (s.holds t)
  counted : Counted s
  room : s.readHolds + s.readCalls ≤ 2 ^ 31 - 1

/-- A thread has no more read holds than there are. -/
theorem reads_le (s : State τ) (t : τ) : (s.holds t).reads ≤ s.readHolds :=
  Finset.single_le_sum (f := fun u => (s.holds u).reads) (fun _ _ => Nat.zero_le _)
    (Finset.mem_univ t)

/-- Nor more write holds. -/
theorem writes_le (s : State τ) (t : τ) : (s.holds t).writes ≤ s.writeHolds :=
  Finset.single_le_sum (f := fun u => (s.holds u).writes) (fun _ _ => Nat.zero_le _)
    (Finset.mem_univ t)

/-- A number within 32 bits with a sign is not wrapped. -/
theorem int32_eq {x : Int} (hlow : -2 ^ 31 ≤ x) (hhigh : x < 2 ^ 31) : int32 x = x := by
  unfold int32
  rw [Int.bmod_eq_of_le (by omega) (by omega)]

section Steps

variable [DecidableEq τ] {s : State τ} {t : τ}

/-- One summand is replaced. -/
theorem sum_update {α : Type} (f : τ → α) (g : α → Nat) (t : τ) (x : α) :
    ∑ u, g (Function.update f t x u) + g (f t) = ∑ u, g (f u) + g x := by
  have hcomp : (fun u => g (Function.update f t x u)) =
      Function.update (fun u => g (f u)) t (g x) := by
    funext u
    exact Function.apply_update (fun _ => g) f t x u
  have hnew := Finset.sum_update_of_mem (Finset.mem_univ t) (fun u => g (f u)) (g x)
  have hold := Finset.sum_sdiff (f := fun u => g (f u)) (Finset.singleton_subset_iff.mpr
    (Finset.mem_univ t))
  rw [Finset.sum_singleton] at hold
  rw [hcomp, hnew]
  omega

/-- What a call that returns changes: its own share of the three sums. -/
theorem sums_put (c : Int) (reads writes : Nat) :
    (s.put t c ⟨reads, writes⟩).readHolds + (s.holds t).reads = s.readHolds + reads ∧
    (s.put t c ⟨reads, writes⟩).writeHolds + (s.holds t).writes = s.writeHolds + writes ∧
    (s.put t c ⟨reads, writes⟩).readCalls + (s.pc t).reading = s.readCalls :=
  ⟨sum_update s.holds Hold.reads t _, sum_update s.holds Hold.writes t _,
    sum_update s.pc Pc.reading t .idle⟩

/-- The calls of read locks in progress change by those of the thread that goes on. -/
theorem readCalls_goto (pc : Pc) :
    (s.goto t pc).readCalls + (s.pc t).reading = s.readCalls + pc.reading :=
  sum_update s.pc Pc.reading t pc

/-- A step of a thread that keeps the counter and the holds. -/
theorem Inv.goto (h : Inv s) {pc : Pc} (hok : pc.Ok (s.holds t))
    (hroom : s.readHolds + s.readCalls + pc.reading ≤ 2 ^ 31 - 1 + (s.pc t).reading) :
    Inv (s.goto t pc) where
  pc u := by
    show Pc.Ok (s.holds u) (Function.update s.pc t pc u)
    by_cases hu : u = t
    · subst hu
      rw [Function.update_self]
      exact hok
    · rw [Function.update_of_ne hu]
      exact h.pc u
  counted := h.counted
  room := by
    have hcalls := readCalls_goto (s := s) (t := t) pc
    have hholds : (s.goto t pc).readHolds = s.readHolds := rfl
    omega

/-- The other threads are where they were. -/
theorem Inv.put_pc (h : Inv s) (c : Int) (hold : Hold) (u : τ) :
    ((s.put t c hold).pc u).Ok ((s.put t c hold).holds u) := by
  show Pc.Ok (Function.update s.holds t hold u) (Function.update s.pc t .idle u)
  by_cases hu : u = t
  · subst hu
    rw [Function.update_self, Function.update_self]
    trivial
  · rw [Function.update_of_ne hu, Function.update_of_ne hu]
    exact h.pc u

/-! ### The four changes of the counter -/

/-- One read hold more.  The count is current and not that of a writer, so there is no writer. -/
theorem Inv.acquireRead (h : Inv s) (hreading : (s.pc t).reading = 1)
    (hcount : s.lockCount ≠ WRITE_LOCKED) :
    Inv (s.put t (int32 (s.lockCount + 1))
      ⟨(s.holds t).reads + 1, (s.holds t).writes⟩) := by
  obtain ⟨hreads, hwrites, hcalls⟩ := sums_put (s := s) (t := t) (int32 (s.lockCount + 1))
    ((s.holds t).reads + 1) (s.holds t).writes
  have hroom := h.room
  refine ⟨h.put_pc _ _, ?_, by omega⟩
  rcases h.counted with ⟨hlocked, -⟩ | ⟨hreaders, hzero⟩
  · exact absurd hlocked hcount
  · -- the call was under way, so there is room for one more
    refine Or.inr ⟨?_, by omega⟩
    exact (int32_eq (by omega) (by omega)).trans (by omega)

/-- A write hold, if there is no hold at all. -/
theorem Inv.acquireWrite (h : Inv s) (hreading : (s.pc t).reading = 0) (hcount : s.lockCount = 0) :
    Inv (s.put t WRITE_LOCKED ⟨(s.holds t).reads, (s.holds t).writes + 1⟩) := by
  obtain ⟨hreads, hwrites, hcalls⟩ := sums_put (s := s) (t := t) WRITE_LOCKED
    (s.holds t).reads ((s.holds t).writes + 1)
  have hroom := h.room
  refine ⟨h.put_pc _ _, ?_, by omega⟩
  rcases h.counted with ⟨hlocked, -⟩ | ⟨hreaders, hzero⟩
  · rw [hlocked] at hcount
    exact absurd hcount (by decide)
  · exact Or.inl ⟨rfl, by omega, by omega⟩

/-- One read hold less: the counter is positive, and the subtraction does not wrap. -/
theorem Inv.releaseRead (h : Inv s) (hreading : (s.pc t).reading = 0)
    (hhold : 0 < (s.holds t).reads) : 0 < s.lockCount ∧
      Inv (s.put t (int32 (s.lockCount - 1))
        ⟨(s.holds t).reads - 1, (s.holds t).writes⟩) := by
  have hle := reads_le s t
  obtain ⟨hreads, hwrites, hcalls⟩ := sums_put (s := s) (t := t) (int32 (s.lockCount - 1))
    ((s.holds t).reads - 1) (s.holds t).writes
  have hroom := h.room
  rcases h.counted with ⟨-, -, hzero⟩ | ⟨hreaders, hzero⟩
  · omega
  · refine ⟨by omega, h.put_pc _ _, Or.inr ⟨?_, by omega⟩, by omega⟩
    exact (int32_eq (by omega) (by omega)).trans (by omega)

/-- The writer leaves, and there is no hold at all. -/
theorem Inv.releaseWrite (h : Inv s) (hreading : (s.pc t).reading = 0)
    (hhold : 0 < (s.holds t).writes) :
    Inv (s.put t 0 ⟨(s.holds t).reads, (s.holds t).writes - 1⟩) := by
  have hle := writes_le s t
  obtain ⟨hreads, hwrites, hcalls⟩ := sums_put (s := s) (t := t) 0
    (s.holds t).reads ((s.holds t).writes - 1)
  have hroom := h.room
  rcases h.counted with ⟨-, hone, hnone⟩ | ⟨-, hzero⟩
  · refine ⟨h.put_pc _ _, Or.inr ⟨?_, by omega⟩, by omega⟩
    show (0 : Int) = _
    omega
  · omega

/-! ### The actions -/

omit [Fintype τ] in
/-- No call stops. -/
theorem exec_call (s : State τ) (t : τ) (op : Op) : ∃ s', exec s (.call t op) = .ok s' := by
  rw [exec]
  split
  · exact ⟨_, rfl⟩
  · exact ⟨_, rfl⟩

omit [Fintype τ] in
/-- To give up a read hold while there is a writer aborts. -/
theorem exec_unlockRead {spurious : Bool} (hpc : s.pc t = .unlockRead) (hneg : s.lockCount < 0) :
    exec s (.atomic t spurious) = .error .abort := by
  simp only [exec, hpc]
  rw [if_pos hneg]

/-- The start of an operation. -/
theorem Inv.call (h : Inv s) {op : Op} (hpc : s.pc t = .idle)
    (hreleases : (Action.call t op).Releases s) (hbounded : (Action.call t op).Bounded s) :
    Inv (s.goto t op.start) := by
  have hroom := h.room
  have hreading : (s.pc t).reading = 0 := by rw [hpc]; rfl
  cases op with
  | lockRead =>
    have := hbounded hpc
    exact h.goto trivial (by show _ + 1 ≤ _; omega)
  | tryLockRead =>
    have := hbounded hpc
    exact h.goto trivial (by show _ + 1 ≤ _; omega)
  | lockWrite => exact h.goto trivial (by show _ + 0 ≤ _; omega)
  | tryLockWrite => exact h.goto trivial (by show _ + 0 ≤ _; omega)
  | unlockRead => exact h.goto (hreleases hpc) (by show _ + 0 ≤ _; omega)
  | unlockWrite => exact h.goto (hreleases hpc) (by show _ + 0 ≤ _; omega)

/-- **One atomic operation keeps the invariant**, and none reaches a fatal branch.  One case for
    each program counter; the cases of the compare-and-swap split once more, since it may fail
    without a reason. -/
theorem Inv.atomic (h : Inv s) (t : τ) (spurious : Bool) :
    ∃ s', exec s (.atomic t spurious) = .ok s' ∧ Inv s' := by
  have hroom := h.room
  have hok := h.pc t
  cases hpc : s.pc t with
  | idle =>
    simp only [exec, hpc]
    exact ⟨s, rfl, h⟩
  | readLoad isTry =>
    have hreading : (s.pc t).reading = 1 := by rw [hpc]; rfl
    simp only [exec, hpc]
    -- under a writer a try fails, and a lock waits
    by_cases hlocked : s.lockCount = WRITE_LOCKED
    · rw [if_pos hlocked]
      refine ⟨_, rfl, h.goto ?_ ?_⟩
      · cases isTry <;> trivial
      · cases isTry with
        | true => show _ + 0 ≤ _; omega
        | false => show _ + 1 ≤ _; omega
    · rw [if_neg hlocked]
      exact ⟨_, rfl, h.goto hlocked (by show _ + 1 ≤ _; omega)⟩
  | readCas isTry count =>
    have hreading : (s.pc t).reading = 1 := by rw [hpc]; rfl
    simp only [exec, hpc]
    by_cases hcas : s.lockCount = count ∧ spurious = false
    · -- a stale count is never that of a writer, and here it is the current one
      rw [if_pos hcas]
      rw [hpc, ← hcas.1] at hok
      rw [← hcas.1]
      exact ⟨_, rfl, h.acquireRead hreading hok⟩
    · rw [if_neg hcas]
      exact ⟨_, rfl, h.goto trivial (by show _ + 1 ≤ _; omega)⟩
  | writeCas isTry =>
    have hreading : (s.pc t).reading = 0 := by rw [hpc]; rfl
    simp only [exec, hpc]
    -- the exchange succeeds only from a free lock
    by_cases hcas : s.lockCount = 0 ∧ spurious = false
    · rw [if_pos hcas]
      exact ⟨_, rfl, h.acquireWrite hreading hcas.1⟩
    · rw [if_neg hcas]
      refine ⟨_, rfl, h.goto ?_ ?_⟩
      · cases isTry <;> trivial
      · cases isTry with
        | true => show _ + 0 ≤ _; omega
        | false => show _ + 0 ≤ _; omega
  | unlockRead =>
    simp only [exec, hpc]
    rw [hpc] at hok
    obtain ⟨hpos, hinv⟩ := h.releaseRead (by rw [hpc]; rfl) hok
    rw [if_neg (by omega)]
    exact ⟨_, rfl, hinv⟩
  | unlockWriteLoad =>
    have hreading : (s.pc t).reading = 0 := by rw [hpc]; rfl
    simp only [exec, hpc]
    rw [hpc] at hok
    have hle := writes_le s t
    have hpos : 0 < (s.holds t).writes := hok
    -- who unlocks a write holds it, so the counter says so
    rcases h.counted with ⟨hlocked, -⟩ | ⟨-, hzero⟩
    · rw [if_neg (not_not.mpr hlocked)]
      exact ⟨_, rfl, h.goto hpos (by show _ + 0 ≤ _; omega)⟩
    · omega
  | unlockWriteStore =>
    simp only [exec, hpc]
    rw [hpc] at hok
    exact ⟨_, rfl, h.releaseWrite (by rw [hpc]; rfl) hok⟩

end Steps

/-! ## Every run -/

variable [DecidableEq τ]

/-- The invariant holds in every lawful run. -/
theorem inv_invariant : (lawful τ).Invariant Inv where
  init s hs := by
    subst hs
    have hzero : ∀ n : Nat, n = 0 → ∑ _ : τ, n = 0 := fun n hn => by simp [hn]
    refine ⟨fun t => trivial, Or.inr ⟨?_, hzero 0 rfl⟩, ?_⟩
    · show (0 : Int) = _
      exact_mod_cast (hzero 0 rfl).symm
    · show ∑ _ : τ, 0 + ∑ _ : τ, 0 ≤ _
      rw [hzero 0 rfl]
      decide
  step s a s' h hstep := by
    obtain ⟨⟨hreleases, hbounded⟩, hexec⟩ := hstep
    cases a with
    | call t op =>
      by_cases hpc : s.pc t = .idle
      · have hcall : exec s (.call t op) = .ok (s.goto t op.start) := by simp only [exec, hpc]
        obtain rfl := Except.ok.inj (hcall.symm.trans hexec)
        exact h.call hpc hreleases hbounded
      · have hcall : exec s (.call t op) = .ok s := by
          simp only [exec]
        obtain rfl := Except.ok.inj (hcall.symm.trans hexec)
        exact h
    | atomic t spurious =>
      obtain ⟨s'', hs'', hinv⟩ := h.atomic t spurious
      obtain rfl := Except.ok.inj (hs''.symm.trans hexec)
      exact hinv

/-- **Mutual exclusion.**  In every reachable state there are not two write holds, nor a write hold
    and a read hold; the counter is -1 exactly if there is a writer and the number of read holds
    otherwise; and no action by which a thread releases what it has is fatal. -/
theorem reachable_excludes {s : State τ} (h : (lawful τ).Reachable s) :
    (∀ t u, 0 < (s.holds t).writes → 0 < (s.holds u).writes → t = u) ∧
    (∀ t, (s.holds t).writes ≤ 1) ∧
    (∀ t u, 0 < (s.holds t).writes → (s.holds u).reads = 0) ∧
    (s.lockCount = WRITE_LOCKED ↔ ∃ t, 0 < (s.holds t).writes) ∧
    ((∀ t, (s.holds t).writes = 0) → s.lockCount = s.readHolds) ∧
    ∀ a : Action τ, a.Releases s → ∃ s', exec s a = .ok s' := by
  have hinv := inv_invariant.reachable h
  have hfatal : ∀ a : Action τ, a.Releases s → ∃ s', exec s a = .ok s' := by
    intro a hreleases
    cases a with
    | call t op => exact exec_call s t op
    | atomic t spurious =>
      obtain ⟨s', hs', -⟩ := hinv.atomic t spurious
      exact ⟨s', hs'⟩
  rcases hinv.counted with ⟨hlocked, hone, hnone⟩ | ⟨hcount, hzero⟩
  · -- the one write hold is some thread's, and all of the sum
    obtain ⟨w, hw⟩ : ∃ w, 0 < (s.holds w).writes := by
      by_contra hno
      have hsum : s.writeHolds = 0 := Finset.sum_eq_zero fun t _ =>
        Nat.eq_zero_of_not_pos fun ht => hno ⟨t, ht⟩
      omega
    refine ⟨fun t u ht hu => ?_, fun t => ?_, fun t u _ => ?_, ?_, fun hno => ?_, hfatal⟩
    · by_contra htu
      have htwo := Finset.add_le_sum (f := fun v => (s.holds v).writes)
        (fun _ _ => Nat.zero_le _) (Finset.mem_univ t) (Finset.mem_univ u) htu
      have hsum : ∑ v, (s.holds v).writes = 1 := hone
      omega
    · have := writes_le s t
      omega
    · have := reads_le s u
      omega
    · exact iff_of_true hlocked ⟨w, hw⟩
    · have := hno w
      omega
  · have hwrites : ∀ t, (s.holds t).writes = 0 := fun t => by
      have := writes_le s t
      omega
    refine ⟨fun t u ht _ => ?_, fun t => ?_, fun t u ht => ?_, ?_, fun _ => hcount, hfatal⟩
    · have := hwrites t
      omega
    · have := hwrites t
      omega
    · have := hwrites t
      omega
    · refine iff_of_false ?_ fun ⟨t, ht⟩ => ?_
      · rw [hcount]
        simp only [WRITE_LOCKED]
        omega
      · have := hwrites t
        omega

/-- A reader that takes the lock again, while another thread's compare-and-swap is under way. -/
theorem reachable_excludes_readers : ∃ s : State Bool, (lawful Bool).Reachable s ∧
    s.lockCount = 3 ∧ (s.holds true).reads = 2 ∧
    ∀ t u, 0 < (s.holds t).writes → 0 < (s.holds u).writes → t = u := by
  have step : ∀ {s s' : State Bool} (a : Action Bool), (lawful Bool).Reachable s →
      a.Releases s → a.Bounded s → exec s a = .ok s' → (lawful Bool).Reachable s' :=
    fun a h hreleases hbounded hexec => h.step (e := a) ⟨⟨hreleases, hbounded⟩, hexec⟩
  have h₀ : (lawful Bool).Reachable ⟨0, fun _ => .idle, fun _ => ⟨0, 0⟩⟩ := .init rfl
  have h₁ := step (.call true .lockRead) h₀ trivial (fun _ => by decide) rfl
  have h₂ := step (.call false .lockRead) h₁ trivial (fun _ => by decide) rfl
  have h₃ := step (.atomic true false) h₂ trivial trivial rfl
  have h₄ := step (.atomic false false) h₃ trivial trivial rfl
  have h₅ := step (.atomic true false) h₄ trivial trivial rfl
  -- the other thread's count is stale by now: it loads again
  have h₆ := step (.atomic false false) h₅ trivial trivial rfl
  have h₇ := step (.atomic false false) h₆ trivial trivial rfl
  have h₈ := step (.atomic false false) h₇ trivial trivial rfl
  have h₉ := step (.call true .tryLockRead) h₈ trivial (fun _ => by decide) rfl
  have h₁₀ := step (.atomic true false) h₉ trivial trivial rfl
  have h₁₁ := step (.atomic true false) h₁₀ trivial trivial rfl
  exact ⟨_, h₁₁, rfl, rfl, (reachable_excludes h₁₁).1⟩

/-! ## One thread that takes the lock again and again -/

/-- One thread outside of the lock's operations: the counter, and its read holds. -/
def reading (count : Int) (k : Nat) : State Unit := ⟨count, fun _ => .idle, fun _ => ⟨k, 0⟩⟩

/-- The runs in which threads release only what they have, and acquire what they like. -/
abbrev releasing : System (State Unit) (Action Unit) := machine.guarded Action.Releases

/-- A call of `LockRead` by a thread alone: load, compare-and-swap, one hold more. -/
theorem reading_step {count : Int} {k : Nat} (hfree : count ≠ WRITE_LOCKED)
    (h : releasing.Reachable (reading count k)) :
    releasing.Reachable (reading (int32 (count + 1)) (k + 1)) := by
  have h₁ : releasing.Reachable ((reading count k).goto () (.readLoad false)) :=
    h.step (e := .call () .lockRead) ⟨trivial, rfl⟩
  have h₂ : releasing.Reachable ((reading count k).goto () (.readCas false count)) :=
    h₁.step (e := .atomic () false) ⟨trivial, if_neg hfree⟩
  exact h₂.step (e := .atomic () false) ⟨trivial, if_pos ⟨rfl, rfl⟩⟩

/-- A thread that reads over and over reaches every count up to the wrap. -/
theorem reading_reachable : ∀ k : Nat, k ≤ 2 ^ 31 →
    releasing.Reachable (reading (int32 k) k) := by
  intro k
  induction k with
  | zero =>
    intro _
    have hzero : int32 (0 : Nat) = 0 := by decide
    rw [hzero]
    exact .init rfl
  | succ k ih =>
    intro hk
    have hcount : int32 k = k := int32_eq (by omega) (by omega)
    have hfree : (k : Int) ≠ WRITE_LOCKED := by
      simp only [WRITE_LOCKED]
      omega
    have hbefore := ih (by omega)
    rw [hcount] at hbefore
    rw [Nat.cast_succ]
    exact reading_step hfree hbefore

/-- **Recursion wraps the counter.**  A thread alone takes the lock for reading 2 ^ 31 times; then
    the counter is not the number of its holds, and a release of one of them aborts. -/
theorem recursion_wraps : ∃ s : State Unit, releasing.Reachable s ∧ s.pc () = .unlockRead ∧
    (s.holds ()).reads = 2 ^ 31 ∧ (s.holds ()).writes = 0 ∧ s.lockCount = -2 ^ 31 ∧
    exec s (.atomic () false) = .error .abort := by
  have h := reading_reachable (2 ^ 31) (Nat.le_refl _)
  have hcount : int32 (2 ^ 31 : Nat) = -2 ^ 31 := by decide
  rw [hcount] at h
  have hcall : releasing.Reachable ((reading (-2 ^ 31) (2 ^ 31)).goto () .unlockRead) :=
    h.step (e := .call () .unlockRead) ⟨fun _ => Nat.two_pow_pos 31, rfl⟩
  exact ⟨_, hcall, rfl, rfl, rfl, rfl, exec_unlockRead rfl (show (-2 ^ 31 : Int) < 0 by decide)⟩

end RwLock

end CangjieRuntime.Base
