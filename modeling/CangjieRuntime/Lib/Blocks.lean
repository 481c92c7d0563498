/-
  Sequences of disjoint, non-touching blocks of natural numbers.

  A block is anything with a start `lo` and a length `len`; it covers `[lo, lo + len)`.  A sequence
  is `Coalesced` when every block ends strictly before every later one starts: the blocks are in
  order, disjoint, and no two of them touch.  `span` is the set a sequence covers.
-/
import Mathlib

set_option linter.unusedVariables false

namespace Blocks

variable {α : Type} (lo len : α → Nat)

/-- Every block ends strictly before every later block starts. -/
def Coalesced (l : List α) : Prop := l.Pairwise fun a b => lo a + len a < lo b

/-- The set a sequence of blocks covers. -/
def span (l : List α) : Set Nat := {u | ∃ a ∈ l, lo a ≤ u ∧ u < lo a + len a}

/-- The summed length of a sequence of blocks. -/
def total (l : List α) : Nat := (l.map len).sum

variable {lo len}

@[simp] theorem span_nil : span lo len ([] : List α) = ∅ := by ext u; simp [span]

@[simp] theorem span_cons (a : α) (l : List α) :
    span lo len (a :: l) = Set.Ico (lo a) (lo a + len a) ∪ span lo len l := by
  ext u; simp [span]

@[simp] theorem span_append (l m : List α) :
    span lo len (l ++ m) = span lo len l ∪ span lo len m := by
  ext u; simp [span, or_and_right, exists_or]

@[simp] theorem total_nil : total len ([] : List α) = 0 := rfl
@[simp] theorem total_cons (a : α) (l : List α) : total len (a :: l) = len a + total len l := by
  simp [total]
@[simp] theorem total_append (l m : List α) :
    total len (l ++ m) = total len l + total len m := by
  simp [total]

/-- A block is no longer than all of them. -/
theorem len_le_total {l : List α} {a : α} (h : a ∈ l) : len a ≤ total len l := by
  induction l with
  | nil => simp at h
  | cons b l ih =>
    rw [total_cons]
    rcases List.mem_cons.mp h with rfl | h
    · omega
    · have := ih h; omega

/-- Blocks behind others do not touch those. -/
theorem coalesced_append {l m : List α} :
    Coalesced lo len (l ++ m) ↔ Coalesced lo len l ∧ Coalesced lo len m ∧
      ∀ a ∈ l, ∀ b ∈ m, lo a + len a < lo b := List.pairwise_append

/-- The first block ends before the others begin. -/
theorem coalesced_cons {a : α} {l : List α} :
    Coalesced lo len (a :: l) ↔ (∀ b ∈ l, lo a + len a < lo b) ∧ Coalesced lo len l :=
  List.pairwise_cons

/-- What a block between two parts of a coalesced sequence has to satisfy. -/
theorem coalesced_middle {l m : List α} {a : α} :
    Coalesced lo len (l ++ a :: m) ↔ Coalesced lo len (l ++ m) ∧
      (∀ b ∈ l, lo b + len b < lo a) ∧ (∀ b ∈ m, lo a + len a < lo b) := by
  simp only [coalesced_append, coalesced_cons, List.mem_cons]
  constructor
  · rintro ⟨hl, ⟨ham, hm⟩, hlm⟩
    exact ⟨⟨hl, hm, fun b hb c hc => hlm b hb c (Or.inr hc)⟩,
      fun b hb => hlm b hb a (Or.inl rfl), ham⟩
  · rintro ⟨⟨hl, hm, hlm⟩, hla, ham⟩
    refine ⟨hl, ⟨ham, hm⟩, fun b hb c hc => ?_⟩
    rcases hc with rfl | hc
    · exact hla b hb
    · exact hlm b hb c hc

/-- Dropping a middle part keeps a sequence coalesced. -/
theorem Coalesced.sublist {l m : List α} (h : Coalesced lo len m) (hs : l.Sublist m) :
    Coalesced lo len l := List.Pairwise.sublist hs h

/-- Disjoint blocks above `low` and below `high` cover no more than the room between. -/
theorem Coalesced.add_total_le {l : List α} (h : Coalesced lo len l) :
    ∀ low high, low ≤ high → (∀ a ∈ l, low ≤ lo a) → (∀ a ∈ l, lo a + len a ≤ high) →
      low + total len l ≤ high := by
  induction l with
  | nil => intro low high hle _ _; simpa using hle
  | cons a l ih =>
    intro low high hle hlow hhigh
    obtain ⟨hal, hl⟩ := coalesced_cons.mp h
    have ha := hlow a (List.mem_cons_self ..)
    have hah := hhigh a (List.mem_cons_self ..)
    have := ih hl (lo a + len a) high hah (fun b hb => Nat.le_of_lt (hal b hb))
      (fun b hb => hhigh b (List.mem_cons_of_mem _ hb))
    rw [total_cons]; omega

/-- The gaps between coalesced blocks need room too: one unit after every block but the last. -/
theorem Coalesced.add_total_add_length_le {l : List α} (h : Coalesced lo len l) {high : Nat} :
    ∀ low, low ≤ high + 1 → (∀ a ∈ l, low ≤ lo a) → (∀ a ∈ l, lo a + len a ≤ high) →
      low + total len l + l.length ≤ high + 1 := by
  induction l with
  | nil => intro low hle _ _; simpa using hle
  | cons a l ih =>
    intro low hle hlow hhigh
    obtain ⟨hal, hl⟩ := coalesced_cons.mp h
    have ha := hlow a List.mem_cons_self
    have ha' := hhigh a List.mem_cons_self
    have hrest := ih hl (lo a + len a + 1) (by omega) (fun b hb => hal b hb)
      fun b hb => hhigh b (List.mem_cons_of_mem a hb)
    rw [total_cons, List.length_cons]
    omega

/-- There are at most as many blocks as units. -/
theorem length_le_total {l : List α} (h : ∀ a ∈ l, 0 < len a) : l.length ≤ total len l := by
  induction l with
  | nil => exact Nat.zero_le _
  | cons a l ih =>
    have hrest := ih fun b hb => h b (List.mem_cons_of_mem a hb)
    have ha := h a List.mem_cons_self
    rw [total_cons, List.length_cons]
    omega

/-- Two blocks of one coalesced sequence that share a unit are the same block. -/
theorem Coalesced.eq_of_mem {l : List α} (h : Coalesced lo len l) {a b : α} (ha : a ∈ l)
    (hb : b ∈ l) {u : Nat} (hau : lo a ≤ u ∧ u < lo a + len a)
    (hbu : lo b ≤ u ∧ u < lo b + len b) : a = b := by
  induction l with
  | nil => simp at ha
  | cons c l ih =>
    obtain ⟨hcl, hl⟩ := coalesced_cons.mp h
    rcases List.mem_cons.mp ha with hac | ha' <;> rcases List.mem_cons.mp hb with hbc | hb'
    · rw [hac, hbc]
    · have := hcl b hb'; subst hac; omega
    · have := hcl a ha'; subst hbc; omega
    · exact ih hl ha' hb'

/-- Two blocks of one coalesced sequence are the same, or do not even touch. -/
theorem Coalesced.eq_or_lt {l : List α} (h : Coalesced lo len l) {a b : α} (ha : a ∈ l)
    (hb : b ∈ l) : a = b ∨ lo a + len a < lo b ∨ lo b + len b < lo a := by
  induction l with
  | nil => exact absurd ha List.not_mem_nil
  | cons c l ih =>
    obtain ⟨hcl, hl⟩ := coalesced_cons.mp h
    rcases List.mem_cons.mp ha with hac | ha' <;> rcases List.mem_cons.mp hb with hbc | hb'
    · exact Or.inl (hac.trans hbc.symm)
    · subst hac
      exact Or.inr (Or.inl (hcl b hb'))
    · subst hbc
      exact Or.inr (Or.inr (hcl a ha'))
    · exact ih hl ha' hb'

/-- **A coalesced sequence is determined by the set it covers**: its blocks are the maximal
    intervals of the set. -/
theorem Coalesced.mem_iff_maximal {l : List α} (h : Coalesced lo len l)
    (hpos : ∀ a ∈ l, 0 < len a) (i c : Nat) :
    (∃ a ∈ l, lo a = i ∧ len a = c) ↔ 0 < c ∧ Set.Ico i (i + c) ⊆ span lo len l ∧
      i + c ∉ span lo len l ∧ ∀ j, j + 1 = i → j ∉ span lo len l := by
  -- the place right behind a block, and the one right before it, are not covered
  have hend : ∀ a ∈ l, lo a + len a ∉ span lo len l := by
    rintro a ha ⟨b, hb, hlow, hhigh⟩
    rcases h.eq_or_lt ha hb with rfl | hlt | hlt <;> omega
  have hbefore : ∀ a ∈ l, ∀ j, j + 1 = lo a → j ∉ span lo len l := by
    rintro a ha j hj ⟨b, hb, hlow, hhigh⟩
    rcases h.eq_or_lt ha hb with rfl | hlt | hlt <;> omega
  constructor
  · rintro ⟨a, ha, rfl, rfl⟩
    exact ⟨hpos a ha, fun u hu => ⟨a, ha, hu.1, hu.2⟩, hend a ha, hbefore a ha⟩
  · rintro ⟨hc, hsub, hstop, hstart⟩
    obtain ⟨a, ha, hlow, hhigh⟩ := hsub ⟨Nat.le_refl i, by omega⟩
    have hi : lo a = i := by
      by_contra hne
      exact hstart (i - 1) (by omega) ⟨a, ha, by omega, by omega⟩
    refine ⟨a, ha, hi, ?_⟩
    by_contra hne
    rcases Nat.lt_or_gt_of_ne hne with hlt | hgt
    · exact hend a ha (hsub ⟨by omega, by omega⟩)
    · exact hstop ⟨a, ha, by omega, by omega⟩

end Blocks
