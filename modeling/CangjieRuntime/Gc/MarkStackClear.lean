/-
  `MarkStackClear` and `MarkStackDestroy`.

  The loop frees the head buffer and goes on until the stack is empty, and empty means that the
  size is 0, the head is null and the tail is null.  The body moves the head and counts the size
  down; the tail is reset behind the loop.  So when the last buffer is gone the tail still points
  to it, the stack does not count as empty, and the next round reads the `next` of a null head
  (`clearLoop_fails`): a stack is cleared exactly if it has nothing to clear (`clears_iff`).
-/
import CangjieRuntime.Gc.MarkStackRuns

set_option linter.unusedVariables false

namespace CangjieRuntime.Gc

open Runs Linked

namespace MarkStack

/-! ## The code -/

/-- The loop of `MarkStackClear`. -/
def clearLoop : Nat → MarkStack → Memory → Except Fault (MarkStack × Memory)
  | 0, st, m => if st.isEmpty then .ok (st, m) else .error .outOfFuel
  | fuel + 1, st, m =>
    if st.isEmpty then .ok (st, m)
    else do
      let tmp := st.h
      let b ← m.read tmp
      let next := b.next
      let st := { st with h := next }
      let m ← match next with
        | some n => m.modify (some n) fun b => { b with pre := none }
        | none => .ok m
      let st := { st with s := Words.sub 64 st.s 1 }
      let m ← deleteBuffer m tmp
      clearLoop fuel st m

/-- `MarkStackClear`. -/
def clear (fuel : Nat) (st : MarkStack) (m : Memory) : Except Fault (MarkStack × Memory) := do
  let (st, m) ← clearLoop fuel st m
  .ok ({ st with t := none }, m)

/-- `MarkStackDestroy`. -/
def destroy (fuel : Nat) (st : MarkStack) (m : Memory) : Except Fault (MarkStack × Memory) :=
  clear fuel st m

/-! ## Statement -/

section Statement

variable {σ : Type} [DecidableEq σ]

/-- What a cleared stack leaves: it is as constructed, its buffers and no others were freed (a
    second deletion of one would be a fault), and all stacks can be used as before. -/
structure Cleared (s : State σ) (m : σ → List Nat) (i : σ) (x : MarkStack × Memory) : Prop where
  empty : x.1 = construct
  freed : ∀ a, x.2.live a = (s.memory.live a && decide (a ∉ s.buffers i))
  usable : Refines (s.setStack i x) (Function.update m i [])

/-- An operation clears the stack: it ends, without a fault, and leaves it `Cleared`. -/
def Clears (op : Nat → MarkStack → Memory → Except Fault (MarkStack × Memory)) (s : State σ)
    (m : σ → List Nat) (i : σ) : Prop :=
  ∃ fuel x, op fuel (s.stackOf i) s.memory = .ok x ∧ Cleared s m i x

end Statement

/-! ## The loop -/

/-- **The loop runs past the last buffer.**  The tail is not null on a stack with buffers, and it
    stays; so the loop never finds the stack empty. -/
theorem clearLoop_fails {l : List Nat} {prev : Nat → Option Nat} {p : Option Nat} :
    ∀ (fuel : Nat) (st : MarkStack) (m : Memory), st.h = l.head? → st.t ≠ none →
      Seg m.next prev p l none → (∀ a ∈ l, m.live a = true) → l.Nodup →
      clearLoop fuel st m = .error (if fuel ≤ l.length then .outOfFuel else .nullDeref) := by
  have hnot : ∀ st : MarkStack, st.t ≠ none → st.isEmpty = false := by
    intro st ht
    simp only [isEmpty, decide_eq_false ht, Bool.and_false]
  induction l generalizing p with
  | nil =>
    intro fuel st m hh ht hlinked hlive hnodup
    cases fuel with
    | zero => simp only [clearLoop, hnot st ht, Bool.false_eq_true, if_false, Nat.zero_le, if_true]
    | succ fuel =>
      rw [List.head?_nil] at hh
      simp only [clearLoop, hnot st ht, hh, Memory.read, bind, Except.bind]
      rfl
  | cons a l ih =>
    intro fuel st m hh ht hlinked hlive hnodup
    cases fuel with
    | zero => simp only [clearLoop, hnot st ht, Bool.false_eq_true, if_false, Nat.zero_le, if_true]
    | succ fuel =>
      obtain ⟨-, hnext, hrest⟩ := hlinked
      obtain ⟨hnotin, hnodup⟩ := List.nodup_cons.mp hnodup
      rw [Option.or_none] at hnext
      have hnext' : (m.buf a).next = l.head? := hnext
      have halive := hlive a List.mem_cons_self
      rw [List.head?_cons] at hh
      let m₁ : Memory := m.setPre l.head? none
      let m₂ : Memory := { m₁ with live := Function.update m₁.live a false }
      have hdelete : deleteBuffer m₁ (some a) = .ok m₂ := if_pos halive
      have hlive₂ : ∀ b ∈ l, m₂.live b = true := by
        intro b hb
        have hba : b ≠ a := fun heq => hnotin (heq ▸ hb)
        show Function.update m.live a false b = true
        rw [Function.update_of_ne hba]
        exact hlive b (List.mem_cons_of_mem a hb)
      have hlinked₂ : Seg m₂.next prev (some a) l none :=
        hrest.congr fun b _ => ⟨Memory.next_setPre _ _ _ _, rfl⟩
      -- the round frees `a`, and the rest runs on the chain behind it
      have hround : clearLoop (fuel + 1) st m =
          clearLoop fuel { st with h := l.head?, s := Words.sub 64 st.s 1 } m₂ := by
        rw [clearLoop, hnot st ht, hh]
        simp only [Bool.false_eq_true, if_false, Memory.read_some halive, bind, Except.bind, hnext']
        cases l with
        | nil => simp only [List.head?_nil, show deleteBuffer m (some a) = .ok m₂ from hdelete]
        | cons b l =>
          simp only [List.head?_cons, Memory.modify_pre (hlive b (by simp)),
            show deleteBuffer (m.setPre (some b) none) (some a) = .ok m₂ from hdelete]
      rw [hround, ih fuel ⟨l.head?, st.t, Words.sub 64 st.s 1⟩ m₂ rfl ht hlinked₂ hlive₂ hnodup]
      simp only [List.length_cons, Nat.add_le_add_iff_right]

/-- On a stack without buffers there is nothing to do. -/
theorem clear_construct (fuel : Nat) (m : Memory) : clear fuel construct m = .ok (construct, m) := by
  have hloop : clearLoop fuel construct m = .ok (construct, m) := by
    cases fuel <;> rfl
  rw [clear, hloop]
  rfl

section Statement

variable {σ : Type} {s : State σ} {m : σ → List Nat} {l : σ → List Nat}

theorem Rep.eq_construct {st : MarkStack} {mem : Memory} (h : Rep st mem []) : st = construct := by
  obtain ⟨head, tail, size⟩ := st
  have hh : head = none := h.head
  have ht : tail = none := h.tail
  have hs : size = 0 := h.size
  rw [hh, ht, hs]
  rfl

/-- A stack with buffers is not cleared, with any fuel. -/
theorem Inv.clear_ne_ok (h : Inv s m l) {i : σ} (hne : l i ≠ []) (fuel : Nat)
    (x : MarkStack × Memory) : clear fuel (s.stackOf i) s.memory ≠ .ok x := by
  intro hclear
  have hrep := h.rep i
  have htail : (s.stackOf i).t ≠ none := by
    rw [hrep.tail]
    exact fun hnone => hne (List.getLast?_eq_none_iff.mp hnone)
  rw [clear, clearLoop_fails fuel _ _ hrep.head htail hrep.linked hrep.live hrep.nodup] at hclear
  cases hclear

variable [DecidableEq σ]

/-- **Exactly the empty stacks are cleared**, in every state the stacks can reach, by
    `MarkStackClear` and by `MarkStackDestroy`.  The tail is reset behind the loop only: when the
    last buffer is gone the stack does not count as empty yet, and the next round reads through a
    null head. -/
theorem clears_iff (h : (machine σ).Reachable (s, m)) (i : σ) :
    (Clears clear s m i ↔ m i = []) ∧ (Clears destroy s m i ↔ m i = []) := by
  obtain ⟨l, hinv⟩ := (machine_invariant σ).reachable h
  have hclear : Clears clear s m i ↔ m i = [] := by
    constructor
    · rintro ⟨fuel, x, hres, -⟩
      by_contra hne
      exact hinv.clear_ne_ok (fun hnil => hne ((hinv.nil_iff i).mpr hnil)) fuel x hres
    · intro hnil
      have hl := (hinv.nil_iff i).mp hnil
      have hrep := hinv.rep i
      rw [hl] at hrep
      have hst := hrep.eq_construct
      have hsame : s.setStack i (construct, s.memory) = s := by
        rw [State.setStack, ← hst, Function.update_eq_self]
      have hmodel : Function.update m i [] = m := by
        rw [← hnil, Function.update_eq_self]
      refine ⟨0, (construct, s.memory), ?_, rfl, fun a => ?_, ?_⟩
      · rw [hst]
        exact clear_construct 0 s.memory
      · rw [hinv.buffers_eq, hl]
        simp
      · rw [hsame, hmodel]
        exact hinv.refines
  exact ⟨hclear, hclear⟩

/-- One value is pushed on one of two stacks. -/
theorem reachable_onePush : ∃ (s : State Bool) (m : Bool → List Nat),
    (machine Bool).Reachable (s, m) ∧ m true = [] ∧ m false = [7] := by
  have h₀ : (machine Bool).Reachable
      ((⟨fun _ => construct, ⟨fun _ => ⟨none, none, 0, fun _ => 0⟩, fun _ => false⟩⟩ : State Bool),
        fun _ => []) := .init ⟨fun _ => rfl, fun _ => rfl, fun _ => rfl⟩
  exact ⟨_, _, h₀.step (e := .pushBack false 7 8) ⟨⟨rfl, by decide, by decide⟩, _, rfl, rfl⟩,
    rfl, rfl⟩

/-- After the push the other stack can be cleared. -/
theorem clears_iff_other : ∃ (s : State Bool) (m : Bool → List Nat),
    (machine Bool).Reachable (s, m) ∧ m false = [7] ∧ Clears clear s m true ∧
      Clears destroy s m true := by
  obtain ⟨s, m, h, hempty, hpushed⟩ := reachable_onePush
  exact ⟨s, m, h, hpushed, (clears_iff h true).1.mpr hempty, (clears_iff h true).2.mpr hempty⟩

/-- After the push its stack cannot be cleared. -/
theorem onePush_not_clears : ∃ (s : State Bool) (m : Bool → List Nat),
    (machine Bool).Reachable (s, m) ∧ ¬ Clears clear s m false ∧ ¬ Clears destroy s m false := by
  obtain ⟨s, m, h, -, hpushed⟩ := reachable_onePush
  obtain ⟨l, hinv⟩ := (machine_invariant Bool).reachable h
  have hne : l false ≠ [] := by
    intro hnil
    have hempty : m false = [] := (hinv.nil_iff false).mpr hnil
    rw [hpushed] at hempty
    exact List.cons_ne_nil _ _ hempty
  have hnot : ¬ Clears clear s m false := fun ⟨fuel, x, hres, _⟩ =>
    hinv.clear_ne_ok hne fuel x hres
  exact ⟨s, m, h, hnot, hnot⟩

end Statement

end MarkStack

end CangjieRuntime.Gc
