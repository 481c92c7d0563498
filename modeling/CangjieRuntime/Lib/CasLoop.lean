/-
  Updates of a shared word by compare-and-swap loops.

  A call loads the word, computes what the update makes of it, and puts that in with a
  compare-and-swap; one that fails has loaded the word again, and the call goes on with that.  Any
  number of threads do calls, one after the other, and one step is one atomic operation of one
  thread.  The log has the updates in the order of their compare-and-swaps.

  The word is what the updates of the log make of the first one, in that order (`word_eq`): no update
  is lost, none is done twice, and none is computed from a stale word.
-/
import CangjieRuntime.Lib.Runs
import Mathlib.Logic.Function.Basic

set_option linter.unusedVariables false

namespace CasLoop

open Runs

/-- The atomic operation a thread does next.  A call loads the word, and tries to put in its update
    until the word is the one it has loaded. -/
inductive Pc (W U : Type)
  /-- Outside of a call. -/
  | idle
  | load (u : U)
  /-- The compare-and-swap from the word that was loaded. -/
  | cas (u : U) (expected : W)

/-- A word, where each thread is, and the updates in the order in which they were put in. -/
structure State (W U τ : Type) where
  word : W
  pc : τ → Pc W U
  /-- The updates that were put in, the last one first. -/
  log : List (τ × U)

/-- A thread calls with an update, or does its next atomic operation. -/
inductive Action (U τ : Type)
  | call (t : τ) (u : U)
  /-- Do the next atomic operation. -/
  | atomic (t : τ)

section Loop

variable {W U τ : Type} [DecidableEq W] [DecidableEq τ] (apply : U → W → W)

def State.goto (s : State W U τ) (t : τ) (pc : Pc W U) : State W U τ :=
  { s with pc := Function.update s.pc t pc }

/-- The update of a call is put in, and the call returns. -/
def State.put (s : State W U τ) (t : τ) (u : U) : State W U τ :=
  { s.goto t .idle with word := apply u s.word, log := (t, u) :: s.log }

/-- One action; a call by a thread that is in a call changes nothing. -/
def exec (s : State W U τ) : Action U τ → State W U τ
  | .call t u =>
    match s.pc t with
    | .idle => s.goto t (.load u)
    | _ => s
  | .atomic t =>
    match s.pc t with
    | .idle => s
    | .load u => s.goto t (.cas u s.word)
    | .cas u expected =>
      if s.word = expected then
        { s.goto t .idle with word := apply u expected, log := (t, u) :: s.log }
      else s.goto t (.cas u s.word)

/-- All threads start outside of a call. -/
def system (τ : Type) [DecidableEq τ] (word : W) : System (State W U τ) (Action U τ) where
  init s := s = ⟨word, fun _ => .idle, []⟩
  step s a s' := s' = exec apply s a

variable {apply} {s s' : State W U τ} {a : Action U τ}

/-- What an action can do: the word stays and no call returns, or a call puts its update in and
    returns. -/
inductive Step (apply : U → W → W) (s : State W U τ) : Action U τ → State W U τ → Prop
  | same {a : Action U τ} : Step apply s a s
  | goto {a : Action U τ} (t : τ) (pc : Pc W U) (hpc : pc ≠ .idle) : Step apply s a (s.goto t pc)
  | put (t : τ) (u : U) (hpc : s.pc t = .cas u s.word) : Step apply s (.atomic t) (s.put apply t u)

variable (apply) in
theorem exec_step (s : State W U τ) (a : Action U τ) : Step apply s a (exec apply s a) := by
  cases a with
  | call t u =>
    rw [exec]
    split
    · exact .goto t _ nofun
    · exact .same
  | atomic t =>
    rw [exec]
    split
    · exact .same
    · exact .goto t _ nofun
    · rename_i u expected hpc
      split
      · rename_i hword
        subst hword
        exact .put t u hpc
      · exact .goto t _ nofun

/-- **The word is what the log says.**  It is the first word with all updates applied in the order
    of the log, since a compare-and-swap succeeds only on the word that it was computed from. -/
theorem word_eq (word : W) (h : (system apply τ word).Reachable s) :
    s.word = s.log.foldr (fun e w => apply e.2 w) word := by
  refine System.Invariant.reachable
    (I := fun s => s.word = s.log.foldr (fun e w => apply e.2 w) word) ⟨?_, ?_⟩ h
  · rintro s rfl
    rfl
  · rintro s a s' hs rfl
    have hstep := exec_step apply s a
    generalize exec apply s a = s' at hstep
    cases hstep with
    | same => exact hs
    | goto t pc hpc => exact hs
    | put t u hpc =>
      show apply u s.word = apply u (s.log.foldr (fun e w => apply e.2 w) word)
      rw [hs]

omit [DecidableEq W] in
/-- A call returns by putting its update in. -/
theorem Step.returns (h : Step apply s a s') {t : τ} (hbefore : s.pc t ≠ .idle)
    (hafter : s'.pc t = .idle) : ∃ u, s.pc t = .cas u s.word ∧ s' = s.put apply t u := by
  cases h with
  | same => exact absurd hafter hbefore
  | goto t' pc hpc =>
    have hpc' : Function.update s.pc t' pc t = .idle := hafter
    by_cases ht : t = t'
    · subst ht
      rw [Function.update_self] at hpc'
      exact absurd hpc' hpc
    · rw [Function.update_of_ne ht] at hpc'
      exact absurd hpc' hbefore
  | put t' u hpc =>
    have hpc' : Function.update s.pc t' .idle t = .idle := hafter
    by_cases ht : t = t'
    · subst ht
      exact ⟨u, hpc, rfl⟩
    · rw [Function.update_of_ne ht] at hpc'
      exact absurd hpc' hbefore

end Loop

end CasLoop
