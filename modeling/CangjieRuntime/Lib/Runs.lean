/-
  Runs of a labelled transition system.

  A system has a set of initial states and a step relation whose labels say which event happened.
  The one induction every safety result needs is packaged here: what holds initially and is kept
  by every step from a reachable state holds in every reachable state (`Invariant.reachable`).
  `guarded` keeps the steps that meet a condition on the state and the event, which is how a
  property is stated for the runs whose events are all allowed.
-/

set_option linter.unusedVariables false

namespace Runs

/-- A labelled transition system over states `σ` and events `ε`. -/
structure System (σ ε : Type) where
  init : σ → Prop
  step : σ → ε → σ → Prop

variable {σ ε : Type}

namespace System

/-- The states some finite run from an initial state ends in. -/
inductive Reachable (M : System σ ε) : σ → Prop
  | init {s : σ} (h : M.init s) : Reachable M s
  | step {s s' : σ} {e : ε} (h : Reachable M s) (hs : M.step s e s') : Reachable M s'

/-- The same system, with only the steps whose state and event satisfy `allowed`. -/
def guarded (M : System σ ε) (allowed : σ → ε → Prop) : System σ ε where
  init := M.init
  step s e s' := allowed s e ∧ M.step s e s'

/-- An inductive invariant: it holds initially, and every step keeps it. -/
structure Invariant (M : System σ ε) (I : σ → Prop) : Prop where
  init : ∀ s, M.init s → I s
  step : ∀ s e s', I s → M.step s e s' → I s'

/-- **The run rule.**  What holds at the start and is kept by every step holds in every reachable
    state. -/
theorem Invariant.reachable {M : System σ ε} {I : σ → Prop} (h : M.Invariant I) {s : σ}
    (hr : M.Reachable s) : I s := by
  induction hr with
  | init hs => exact h.init _ hs
  | step _ hstep ih => exact h.step _ _ _ ih hstep

end System

end Runs
