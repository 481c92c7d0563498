/-
  Doubly linked sequences.

  `Seg next prev p l q` says that the elements of `l` are linked in this order by the two functions,
  with `p` before the first and `q` after the last.  Whatever an operation does to the links, it
  changes them at the ends of segments only (`Seg.relink`), so that splicing is three facts: two
  sequences are joined (`Seg.join`), one is cut in two (`Seg.cut`), an element is taken out
  (`Seg.remove`).
-/
import Mathlib

set_option linter.unusedVariables false

namespace Linked

variable {α : Type} {next prev next' prev' : α → Option α} {p q p' q' : Option α} {l l' : List α}

/-- `l` is linked, between `p` and `q`. -/
def Seg (next prev : α → Option α) : Option α → List α → Option α → Prop
  | _, [], _ => True
  | p, a :: l, q => prev a = p ∧ next a = l.head?.or q ∧ Seg next prev (some a) l q

theorem seg_append : Seg next prev p (l ++ l') q ↔
    Seg next prev p l (l'.head?.or q) ∧ Seg next prev (l.getLast?.or p) l' q := by
  induction l generalizing p with
  | nil => simp [Seg]
  | cons a l ih =>
    have hlast : (a :: l).getLast?.or p = l.getLast?.or (some a) := by
      rw [List.getLast?_cons]
      cases l.getLast? <;> rfl
    simp only [List.cons_append, Seg, ih, hlast, List.head?_append, Option.or_assoc, and_assoc]

/-- Only the links of the elements matter. -/
theorem Seg.congr (h : Seg next prev p l q)
    (hlinks : ∀ a ∈ l, next' a = next a ∧ prev' a = prev a) : Seg next' prev' p l q := by
  induction l generalizing p with
  | nil => trivial
  | cons a l ih =>
    obtain ⟨hprev, hnext, hrest⟩ := h
    obtain ⟨hn, hp⟩ := hlinks a List.mem_cons_self
    exact ⟨hp.trans hprev, hn.trans hnext,
      ih hrest fun b hb => hlinks b (List.mem_cons_of_mem a hb)⟩

/-- New neighbours for the whole: the links change at the two ends only. -/
theorem Seg.relink [DecidableEq α] (h : Seg next prev p l q) (hnodup : l.Nodup)
    (hprev : ∀ a ∈ l, prev' a = if l.head? = some a then p' else prev a)
    (hnext : ∀ a ∈ l, next' a = if l.getLast? = some a then q' else next a) :
    Seg next' prev' p' l q' := by
  induction l generalizing p p' with
  | nil => trivial
  | cons a l ih =>
    obtain ⟨-, hnexta, hrest⟩ := h
    obtain ⟨hnotin, hnodup⟩ := List.nodup_cons.mp hnodup
    refine ⟨?_, ?_, ih hrest hnodup (fun b hb => ?_) (fun b hb => ?_)⟩
    · rw [hprev a List.mem_cons_self, List.head?_cons, if_pos rfl]
    · rw [hnext a List.mem_cons_self]
      cases l with
      | nil => rw [List.getLast?_singleton, if_pos rfl]; rfl
      | cons b l =>
        rw [List.getLast?_cons_cons, if_neg, hnexta]
        · rfl
        · exact fun hlast => hnotin (List.mem_of_getLast? hlast)
    · have hne : a ≠ b := fun hab => hnotin (hab ▸ hb)
      rw [hprev b (List.mem_cons_of_mem a hb), List.head?_cons, if_neg (by simpa using hne)]
      split
      case isTrue hhead =>
        obtain ⟨l, rfl⟩ := List.head?_eq_some_iff.mp hhead
        exact hrest.1
      case isFalse => rfl
    · rw [hnext b (List.mem_cons_of_mem a hb)]
      cases l with
      | nil => exact absurd hb List.not_mem_nil
      | cons c l => rw [List.getLast?_cons_cons]

/-- A new successor for the whole; the links to `r` are those of an element elsewhere. -/
theorem Seg.relinkLast [DecidableEq α] {r s : Option α} (h : Seg next prev p l q)
    (hnodup : l.Nodup) (hr : ∀ a ∈ l, r ≠ some a)
    (hnext : ∀ a ∈ l, next' a = if l.getLast? = some a then q' else next a)
    (hprev : ∀ a ∈ l, prev' a = if r = some a then s else prev a) : Seg next' prev' p l q' := by
  refine h.relink hnodup (fun a ha => ?_) hnext
  rw [hprev a ha, if_neg (hr a ha)]
  split
  case isTrue hhead =>
    obtain ⟨l, rfl⟩ := List.head?_eq_some_iff.mp hhead
    exact h.1
  case isFalse => rfl

/-- A new predecessor for the whole; the links to `r` are those of an element elsewhere. -/
theorem Seg.relinkFirst [DecidableEq α] {r s : Option α} (h : Seg next prev p l q)
    (hnodup : l.Nodup) (hr : ∀ a ∈ l, r ≠ some a)
    (hnext : ∀ a ∈ l, next' a = if r = some a then s else next a)
    (hprev : ∀ a ∈ l, prev' a = if l.head? = some a then p' else prev a) :
    Seg next' prev' p' l q := by
  refine h.relink hnodup hprev fun a ha => ?_
  rw [hnext a ha, if_neg (hr a ha)]
  split
  case isTrue hlast =>
    obtain ⟨l, rfl⟩ := List.getLast?_eq_some_iff.mp hlast
    exact (seg_append.mp h).2.2.1
  case isFalse => rfl

theorem head?_ne_of_disjoint (h : l.Disjoint l') : ∀ a ∈ l, l'.head? ≠ some a :=
  fun a ha hhead => h ha (List.mem_of_head? hhead)

theorem getLast?_ne_of_disjoint (h : l.Disjoint l') : ∀ a ∈ l', l.getLast? ≠ some a :=
  fun a ha hlast => h (List.mem_of_getLast? hlast) ha

/-- **Joining.**  The last element of `l` and the first of `l'` are linked to each other.  Whatever
    is outside of the two segments is not read, so its links may be anything. -/
theorem Seg.join [DecidableEq α] (h : Seg next prev none l none) (h' : Seg next prev none l' none)
    (hnodup : (l ++ l').Nodup)
    (hnext : ∀ a ∈ l ++ l', next' a = if l.getLast? = some a then l'.head? else next a)
    (hprev : ∀ a ∈ l ++ l', prev' a = if l'.head? = some a then l.getLast? else prev a) :
    Seg next' prev' none (l ++ l') none := by
  obtain ⟨hl, hl', hdisj⟩ := List.nodup_append'.mp hnodup
  rw [seg_append, Option.or_none, Option.or_none]
  constructor
  · exact h.relinkLast hl (head?_ne_of_disjoint hdisj)
      (fun a ha => hnext a (List.mem_append_left l' ha))
      (fun a ha => hprev a (List.mem_append_left l' ha))
  · exact h'.relinkFirst hl' (getLast?_ne_of_disjoint hdisj)
      (fun a ha => hnext a (List.mem_append_right l ha))
      (fun a ha => hprev a (List.mem_append_right l ha))

/-- **Cutting.**  The last element of `l` and the first of `l'` lose each other.  Both parts are
    segments again, each with an open end. -/
theorem Seg.cut [DecidableEq α] (h : Seg next prev none (l ++ l') none)
    (hnodup : (l ++ l').Nodup)
    (hnext : ∀ a ∈ l ++ l', next' a = if l.getLast? = some a then none else next a)
    (hprev : ∀ a ∈ l ++ l', prev' a = if l'.head? = some a then none else prev a) :
    Seg next' prev' none l none ∧ Seg next' prev' none l' none := by
  obtain ⟨hl, hl', hdisj⟩ := List.nodup_append'.mp hnodup
  obtain ⟨h, h'⟩ := seg_append.mp h
  constructor
  · exact h.relinkLast hl (head?_ne_of_disjoint hdisj)
      (fun a ha => hnext a (List.mem_append_left l' ha))
      (fun a ha => hprev a (List.mem_append_left l' ha))
  · exact h'.relinkFirst hl' (getLast?_ne_of_disjoint hdisj)
      (fun a ha => hnext a (List.mem_append_right l ha))
      (fun a ha => hprev a (List.mem_append_right l ha))

/-- The neighbours of an element in the middle. -/
theorem Seg.neighbours {a : α} (h : Seg next prev p (l ++ a :: l') q) :
    prev a = l.getLast?.or p ∧ next a = l'.head?.or q := by
  obtain ⟨-, hprev, hnext, -⟩ := seg_append.mp h
  exact ⟨hprev, hnext⟩

/-- The links are inverse to each other. -/
theorem Seg.inverse {a b : α} (h : Seg next prev none l none) (ha : a ∈ l) (hb : b ∈ l) :
    next a = some b ↔ prev b = some a := by
  constructor
  · intro hnext
    obtain ⟨l, l', rfl⟩ := List.append_of_mem ha
    rw [h.neighbours.2, Option.or_none] at hnext
    obtain ⟨l', rfl⟩ := List.head?_eq_some_iff.mp hnext
    rw [show l ++ a :: b :: l' = (l ++ [a]) ++ b :: l' by simp] at h
    rw [h.neighbours.1, List.getLast?_concat]
    rfl
  · intro hprev
    obtain ⟨l, l', rfl⟩ := List.append_of_mem hb
    rw [h.neighbours.1, Option.or_none] at hprev
    obtain ⟨l, rfl⟩ := List.getLast?_eq_some_iff.mp hprev
    rw [show (l ++ [a]) ++ b :: l' = l ++ a :: b :: l' by simp] at h
    rw [h.neighbours.2]
    rfl

/-- **Removing.**  The neighbours of an element are linked to each other.  The element's own links
    may be anything afterwards. -/
theorem Seg.remove [DecidableEq α] {a : α} (h : Seg next prev none (l ++ a :: l') none)
    (hnodup : (l ++ l').Nodup)
    (hnext : ∀ b ∈ l ++ l', next' b = if l.getLast? = some b then l'.head? else next b)
    (hprev : ∀ b ∈ l ++ l', prev' b = if l'.head? = some b then l.getLast? else prev b) :
    Seg next' prev' none (l ++ l') none := by
  obtain ⟨hl, hl', hdisj⟩ := List.nodup_append'.mp hnodup
  obtain ⟨h, -, -, h'⟩ := seg_append.mp h
  rw [seg_append, Option.or_none, Option.or_none]
  constructor
  · exact h.relinkLast hl (head?_ne_of_disjoint hdisj)
      (fun b hb => hnext b (List.mem_append_left l' hb))
      (fun b hb => hprev b (List.mem_append_left l' hb))
  · exact h'.relinkFirst hl' (getLast?_ne_of_disjoint hdisj)
      (fun b hb => hnext b (List.mem_append_right l hb))
      (fun b hb => hprev b (List.mem_append_right l hb))

end Linked
