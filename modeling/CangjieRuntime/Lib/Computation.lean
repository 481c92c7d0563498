/-
  Computations with a state and loops that may not end.

  A program with mutable fields and unbounded loops is a function of its state (`Comp`) that has no
  result when the fuel given to its loops is used up.  `Run m s Q` says that `m` ends from the state
  `s`, with a result and a state that satisfy `Q`; it is proved along the text of the program, with a
  rule for each construct, and a measure for each loop (`run_iterate`).
-/
import Mathlib.Logic.Relation

set_option linter.unusedVariables false

namespace CangjieRuntime.Computation

/-- A computation on a state `σ`: no result if the fuel runs out. -/
abbrev Comp (σ α : Type) := StateT σ Option α

variable {σ α β : Type}

/-- A loop with fuel for `n` rounds.  The body goes on with `.inl` and ends the loop with `.inr`. -/
def iterate (body : α → Comp σ (α ⊕ β)) : Nat → α → Comp σ β
  | 0, a => fun _ => none
  | fuel + 1, a => do
    match ← body a with
    | .inl a' => iterate body fuel a'
    | .inr b => pure b

/-- The computation ends, and its result and state satisfy `Q`. -/
def Run (m : Comp σ α) (s : σ) (Q : α → σ → Prop) : Prop := ∃ a s', m s = some (a, s') ∧ Q a s'

/-! ## Rules -/

section Rules

variable {m : Comp σ α} {f : α → Comp σ β} {s s' : σ} {Q P : α → σ → Prop} {R : β → σ → Prop}

/-- After a step that returns, the next one runs in the state it left. -/
theorem bind_of_eq {a : α} (h : m s = some (a, s')) : (m >>= f) s = f a s' := by
  show StateT.bind m f s = f a s'
  rw [StateT.bind, h]
  rfl

/-- A step that reads the state changes nothing. -/
theorem get_bind (f : σ → Comp σ β) : (get >>= f) s = f s s := rfl

/-- To return is to end in the same state. -/
theorem pure_eq (a : α) : (pure a : Comp σ α) s = some (a, s) := rfl

/-- A value that satisfies the postcondition may be returned. -/
theorem run_pure {a : α} (h : Q a s) : Run (pure a) s Q := ⟨a, s, rfl, h⟩

/-- A run that ends with more than is asked for ends with what is asked for. -/
theorem Run.mono (h : Run m s P) (himp : ∀ a s', P a s' → Q a s') : Run m s Q := by
  obtain ⟨a, s', heq, hP⟩ := h
  exact ⟨a, s', heq, himp a s' hP⟩

/-- Two steps end if the first one does and the second one does from wherever the first may end. -/
theorem Run.bind (h : Run m s P) (hrest : ∀ a s', P a s' → Run (f a) s' R) :
    Run (m >>= f) s R := by
  obtain ⟨a, s', heq, hP⟩ := h
  obtain ⟨b, s'', heq', hR⟩ := hrest a s' hP
  exact ⟨b, s'', by rw [bind_of_eq heq, heq'], hR⟩

/-- The rule for a step that reads the state. -/
theorem run_get {f : σ → Comp σ β} (h : Run (f s) s R) : Run (get >>= f) s R := h

/-- The rule for a step that writes the state. -/
theorem run_modify {g : σ → σ} {Q : Unit → σ → Prop} (h : Q () (g s)) : Run (modify g) s Q :=
  ⟨(), g s, rfl, h⟩

/-- The rule for a choice: both branches end under their condition. -/
theorem run_ite {c : Prop} [Decidable c] {m' : Comp σ α} (ht : c → Run m s Q)
    (hf : ¬ c → Run m' s Q) : Run (if c then m else m') s Q := by
  split
  case isTrue h => exact ht h
  case isFalse h => exact hf h

/-- Two results of one computation are one. -/
theorem Run.of_eq {a : α} (h : Run m s Q) (heq : m s = some (a, s')) : Q a s' := by
  obtain ⟨a', s'', heq', hQ⟩ := h
  rw [heq] at heq'
  cases heq'
  exact hQ

end Rules

/-! ## Loops -/

section Loops

variable {body : α → Comp σ (α ⊕ β)} {a a' : α} {b : β} {s s' : σ} {fuel : Nat}

/-- A round that goes on is followed by the rest of the loop. -/
theorem iterate_inl (h : body a s = some (.inl a', s')) :
    iterate body (fuel + 1) a s = iterate body fuel a' s' := by
  rw [iterate, bind_of_eq h]

/-- A round that ends is the end of the loop. -/
theorem iterate_inr (h : body a s = some (.inr b, s')) :
    iterate body (fuel + 1) a s = some (b, s') := by
  rw [iterate, bind_of_eq h]
  rfl

/-- A loop whose rounds keep `I` and lower the measure ends, if it has more fuel than the measure. -/
theorem run_iterate (I : α → σ → Prop) (μ : σ → Nat) {Q : β → σ → Prop}
    (hbody : ∀ a s, I a s → Run (body a) s fun r s' =>
      (∀ a', r = .inl a' → I a' s' ∧ μ s' < μ s) ∧ ∀ b, r = .inr b → Q b s') :
    ∀ fuel a s, I a s → μ s < fuel → Run (iterate body fuel a) s Q := by
  intro fuel
  induction fuel with
  | zero =>
    intro a s hI hfuel
    exact absurd hfuel (Nat.not_lt_zero _)
  | succ fuel ih =>
    intro a s hI hfuel
    obtain ⟨r, s', heq, hinl, hinr⟩ := hbody a s hI
    cases r with
    | inl a' =>
      obtain ⟨hI', hμ⟩ := hinl a' rfl
      obtain ⟨b, s'', heq', hQ⟩ := ih a' s' hI' (by omega)
      exact ⟨b, s'', by rw [iterate_inl heq, heq'], hQ⟩
    | inr b => exact ⟨b, s', iterate_inr heq, hinr b rfl⟩

end Loops

end CangjieRuntime.Computation
