/-
  What holds if a computation ends.

  `IfReturns m s Q` says that the result and the state of `m` satisfy `Q`, if `m` has a result from
  the state `s`.  It is proved along the text of the program, as `Run` is, but a loop needs only an
  invariant and no measure (`ifReturns_iterate`).  A computation without a result for any fuel never
  ends: a loop whose every round goes on is one (`iterate_eq_none`).
-/
import CangjieRuntime.Lib.Computation

set_option linter.unusedVariables false

namespace CangjieRuntime.Computation

variable {σ α β : Type}

/-- If the computation ends, its result and state satisfy `Q`. -/
def IfReturns (m : Comp σ α) (s : σ) (Q : α → σ → Prop) : Prop :=
  ∀ a s', m s = some (a, s') → Q a s'

/-! ## Rules -/

section Rules

variable {m : Comp σ α} {f : α → Comp σ β} {s s' : σ} {Q P : α → σ → Prop} {R : β → σ → Prop}

/-- A run whose result is known. -/
theorem ifReturns_of_eq {a : α} (h : m s = some (a, s')) (hQ : Q a s') : IfReturns m s Q := by
  intro b t heq
  rw [h] at heq
  cases heq
  exact hQ

/-- A run that does not return satisfies everything. -/
theorem ifReturns_of_none (h : m s = none) : IfReturns m s Q := by
  intro a t heq
  rw [h] at heq
  cases heq

/-- A value that satisfies the postcondition may be returned. -/
theorem ifReturns_pure {a : α} (h : Q a s) : IfReturns (pure a) s Q := ifReturns_of_eq rfl h

/-- A weaker postcondition holds as well. -/
theorem IfReturns.mono (h : IfReturns m s P) (himp : ∀ a s', P a s' → Q a s') :
    IfReturns m s Q :=
  fun a s' heq => himp a s' (h a s' heq)

/-- Nothing follows on a step that does not return. -/
theorem bind_none (h : m s = none) : (m >>= f) s = none := by
  show StateT.bind m f s = none
  rw [StateT.bind, h]
  rfl

/-- The second step is run where the first one has returned. -/
theorem IfReturns.bind (h : IfReturns m s P) (hrest : ∀ a s', P a s' → IfReturns (f a) s' R) :
    IfReturns (m >>= f) s R := by
  rcases hm : m s with _ | ⟨a, t⟩
  · exact ifReturns_of_none (bind_none hm)
  · intro b u heq
    rw [bind_of_eq hm] at heq
    exact hrest a t (h a t hm) b u heq

/-- What follows never ends, so the whole never ends. -/
theorem IfReturns.bind_eq_none (h : IfReturns m s P) (hrest : ∀ a s', P a s' → f a s' = none) :
    (m >>= f) s = none := by
  rcases hm : m s with _ | ⟨a, t⟩
  · exact bind_none hm
  · rw [bind_of_eq hm]
    exact hrest a t (h a t hm)

/-- The rule for a step that reads the state. -/
theorem ifReturns_get {f : σ → Comp σ β} (h : IfReturns (f s) s R) : IfReturns (get >>= f) s R := h

/-- The rule for a step that writes the state. -/
theorem ifReturns_modify {g : σ → σ} {Q : Unit → σ → Prop} (h : Q () (g s)) :
    IfReturns (modify g) s Q := ifReturns_of_eq (a := ()) rfl h

/-- The rule for a choice: both branches under their condition. -/
theorem ifReturns_ite {c : Prop} [Decidable c] {m' : Comp σ α} (ht : c → IfReturns m s Q)
    (hf : ¬ c → IfReturns m' s Q) : IfReturns (if c then m else m') s Q := by
  split
  case isTrue h => exact ht h
  case isFalse h => exact hf h

/-- A computation that ends has one outcome. -/
theorem Run.ifReturns (h : Run m s Q) : IfReturns m s Q := fun _ _ heq => h.of_eq heq

theorem modify_eq (g : σ → σ) : (modify g : Comp σ Unit) s = some ((), g s) := rfl

end Rules

/-! ## Loops -/

section Loops

variable {body : α → Comp σ (α ⊕ β)} {a a' : α} {b : β} {s s' : σ} {Q : β → σ → Prop}

/-- A round that goes on hands over to the rest of the loop. -/
theorem ifReturns_iterate_inl (h : body a s = some (.inl a', s'))
    (hrest : ∀ fuel, IfReturns (iterate body fuel a') s' Q) :
    ∀ fuel, IfReturns (iterate body fuel a) s Q := by
  intro fuel
  cases fuel with
  | zero => exact ifReturns_of_none rfl
  | succ fuel =>
    rw [IfReturns, iterate_inl h]
    exact hrest fuel

/-- The end of a round that goes on, and of the last round. -/
theorem ifReturns_next {I : α → σ → Prop} (h : I a s) :
    IfReturns (pure (.inl a) : Comp σ (α ⊕ β)) s fun r s' =>
      (∀ a', r = .inl a' → I a' s') ∧ ∀ b, r = .inr b → Q b s' := by
  refine ifReturns_pure ⟨fun a' ha => ?_, fun b hb => by cases hb⟩
  cases ha
  exact h

/-- A round that ends needs no invariant behind it. -/
theorem ifReturns_last {I : α → σ → Prop} (h : Q b s) :
    IfReturns (pure (.inr b) : Comp σ (α ⊕ β)) s fun r s' =>
      (∀ a', r = .inl a' → I a' s') ∧ ∀ b, r = .inr b → Q b s' := by
  refine ifReturns_pure ⟨fun a' ha => (by cases ha), fun b hb => ?_⟩
  cases hb
  exact h

/-- **The loop rule.**  The rounds keep `I`, and the last one leaves `Q`.  Nothing is said of a loop
    that does not end; this is the partial rule. -/
theorem ifReturns_iterate (I : α → σ → Prop)
    (hbody : ∀ a s, I a s → IfReturns (body a) s fun r s' =>
      (∀ a', r = .inl a' → I a' s') ∧ ∀ b, r = .inr b → Q b s') :
    ∀ fuel a s, I a s → IfReturns (iterate body fuel a) s Q := by
  intro fuel
  induction fuel with
  | zero =>
    intro a s hI
    exact ifReturns_of_none rfl
  | succ fuel ih =>
    intro a s hI
    refine (hbody a s hI).bind ?_
    rintro (a' | b) s' ⟨hinl, hinr⟩
    · exact ih a' s' (hinl a' rfl)
    · exact ifReturns_pure (hinr b rfl)

/-- A loop ends if its rounds lower a measure of the loop variable and the state. -/
theorem run_iterate_measure (I : α → σ → Prop) (μ : α → σ → Nat)
    (hbody : ∀ a s, I a s → Run (body a) s fun r s' =>
      (∀ a', r = .inl a' → I a' s' ∧ μ a' s' < μ a s) ∧ ∀ b, r = .inr b → Q b s') :
    ∀ fuel a s, I a s → μ a s < fuel → Run (iterate body fuel a) s Q := by
  intro fuel
  induction fuel with
  | zero =>
    intro a s hI hfuel
    exact absurd hfuel (Nat.not_lt_zero _)
  | succ fuel ih =>
    intro a s hI hfuel
    refine (hbody a s hI).bind ?_
    rintro (a' | b) s' ⟨hinl, hinr⟩
    · obtain ⟨hI', hμ⟩ := hinl a' rfl
      exact ih a' s' hI' (by omega)
    · exact run_pure (hinr b rfl)

/-- The rounds of such a loop leave `Q`, with any fuel. -/
theorem ifReturns_iterate_measure (I : α → σ → Prop) (μ : α → σ → Nat)
    (hbody : ∀ a s, I a s → Run (body a) s fun r s' =>
      (∀ a', r = .inl a' → I a' s' ∧ μ a' s' < μ a s) ∧ ∀ b, r = .inr b → Q b s') :
    ∀ fuel a s, I a s → IfReturns (iterate body fuel a) s Q :=
  ifReturns_iterate I fun a s hI => (hbody a s hI).ifReturns.mono fun r s' h =>
    ⟨fun a' hr => (h.1 a' hr).1, h.2⟩

/-- **Two loops side by side.**  Their rounds go on together, and end together.  A relation between
    their states is kept by each pair of rounds. -/
theorem run_iterate_beside {τ α' β' : Type} {body' : α' → Comp τ (α' ⊕ β')}
    {I : α → σ → α' → τ → Prop} {R : β → σ → β' → τ → Prop} (μ : α' → τ → Nat)
    (hbody : ∀ a s a' t, I a s a' t → Run (body a) s fun r s' =>
      (∃ b b' t', r = .inl b ∧ body' a' t = some (.inl b', t') ∧ I b s' b' t' ∧ μ b' t' < μ a' t) ∨
      ∃ b b' t', r = .inr b ∧ body' a' t = some (.inr b', t') ∧ R b s' b' t') :
    ∀ fuel a s a' t, I a s a' t → μ a' t < fuel → Run (iterate body fuel a) s fun b s' =>
      ∃ b' t', iterate body' fuel a' t = some (b', t') ∧ R b s' b' t' := by
  intro fuel
  induction fuel with
  | zero =>
    intro a s a' t hI hfuel
    exact absurd hfuel (Nat.not_lt_zero _)
  | succ fuel ih =>
    intro a s a' t hI hfuel
    refine (hbody a s a' t hI).bind ?_
    rintro r s' (⟨b, b', t', rfl, heq, hI', hμ⟩ | ⟨b, b', t', rfl, heq, hR⟩)
    · refine (ih b s' b' t' hI' (by omega)).mono ?_
      rintro c s'' ⟨c', t'', hloop, hR⟩
      exact ⟨c', t'', (iterate_inl heq).trans hloop, hR⟩
    · exact run_pure ⟨b', t', iterate_inr heq, hR⟩

/-- **A loop whose rounds all go on never ends.**  A property of the states is kept, and a round
    from such a state never is the last one. -/
theorem iterate_eq_none (I : α → σ → Prop)
    (hbody : ∀ a s, I a s → IfReturns (body a) s fun r s' => ∃ a', r = .inl a' ∧ I a' s') :
    ∀ fuel a s, I a s → iterate body fuel a s = none := by
  intro fuel
  induction fuel with
  | zero =>
    intro a s hI
    rfl
  | succ fuel ih =>
    intro a s hI
    refine (hbody a s hI).bind_eq_none ?_
    rintro r s' ⟨a', rfl, hI'⟩
    exact ih a' s' hI'

end Loops

end CangjieRuntime.Computation
