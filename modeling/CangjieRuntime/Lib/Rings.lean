/-
  Rings of doubly linked nodes.

  Every node has a next and a previous one.  `Linked m a b` says that `b` follows `a` in both
  directions, a `Path` is a list of nodes each linked to the one after it, and the `Ring` of `h` and
  `l` is the path from `h` through `l` back to `h`.

  All surgery on rings is made of one edit, `connect a b`, which makes `b` follow `a`.  It breaks no
  link of a path that neither leaves `a` nor enters `b` (`Path.connect`), so two paths are joined by
  connecting their ends (`Path.join`).  From that come the three edits of a ring: `Ring.unlink`
  takes a segment out, `Ring.splice` puts a path in, and a foreign edit changes nothing
  (`Ring.connect_of_notMem`).
-/
import Mathlib

set_option linter.unusedVariables false

namespace Rings

/-- The two links of every node.  They are total functions: a node that is in no ring has links as
    well, and nothing is said of them. -/
structure Links (α : Type) where
  next : α → α
  prev : α → α

variable {α : Type}

/-- `b` follows `a`, in both directions.  A ring is a cycle of such pairs, and an operation makes
    and breaks a few of them. -/
def Linked (m : Links α) (a b : α) : Prop := m.next a = b ∧ m.prev b = a

/-- Every node of the list is linked to the one after it. -/
def Path (m : Links α) (l : List α) : Prop := l.IsChain (Linked m)

/-- The path from `h` through `l` back to `h`. -/
def Ring (m : Links α) (h : α) (l : List α) : Prop := Path m (h :: (l ++ [h]))

/-- The links the other way round. -/
def Links.swap (m : Links α) : Links α := ⟨m.prev, m.next⟩

/-- Make `b` follow `a`. -/
def Links.connect [DecidableEq α] (m : Links α) (a b : α) : Links α :=
  ⟨Function.update m.next a b, Function.update m.prev b a⟩

variable {m m' : Links α} {a b x y h : α} {l l₁ l₂ u v c : List α}

/-! ## Paths -/

@[simp] theorem path_nil : Path m [] := List.IsChain.nil

@[simp] theorem path_singleton (a : α) : Path m [a] := List.IsChain.singleton a

@[simp] theorem path_cons_cons : Path m (a :: b :: l) ↔ Linked m a b ∧ Path m (b :: l) :=
  List.isChain_cons_cons

/-- Two paths are one if the last node of the first is linked to the first node of the second. -/
theorem path_append : Path m (l₁ ++ l₂) ↔
    Path m l₁ ∧ Path m l₂ ∧ ∀ x ∈ l₁.getLast?, ∀ y ∈ l₂.head?, Linked m x y :=
  List.isChain_append

/-- With the links exchanged a path is walked backwards. -/
theorem path_swap : Path m.swap l ↔ Path m l.reverse := by
  unfold Path
  rw [List.isChain_reverse]
  exact List.IsChain.iff fun a b => and_comm

/-- Only the links out of all nodes but the last, and into all but the first, matter. -/
theorem Path.congr (hpath : Path m l) (hnext : ∀ x ∈ l.dropLast, m'.next x = m.next x)
    (hprev : ∀ y ∈ l.tail, m'.prev y = m.prev y) : Path m' l := by
  induction l with
  | nil => exact path_nil
  | cons a l ih =>
    cases l with
    | nil => exact path_singleton a
    | cons b l =>
      obtain ⟨hlinked, hrest⟩ := path_cons_cons.mp hpath
      rw [List.dropLast_cons_cons] at hnext
      refine path_cons_cons.mpr ⟨⟨?_, ?_⟩, ih hrest ?_ ?_⟩
      · rw [hnext a List.mem_cons_self]
        exact hlinked.1
      · rw [hprev b List.mem_cons_self]
        exact hlinked.2
      · intro x hx
        exact hnext x (List.mem_cons_of_mem a hx)
      · intro y hy
        exact hprev y (List.mem_cons_of_mem b hy)

/-- A walk along a path is at its nodes. -/
theorem Path.iterate_next (hpath : Path m (a :: l)) :
    ∀ k ≤ l.length, (a :: l.take k).getLast? = some (m.next^[k] a) := by
  induction l generalizing a with
  | nil =>
    intro k hk
    obtain rfl := Nat.le_zero.mp hk
    rfl
  | cons b l ih =>
    obtain ⟨hlinked, hrest⟩ := path_cons_cons.mp hpath
    intro k hk
    cases k with
    | zero => rfl
    | succ k =>
      rw [List.take_succ_cons, List.getLast?_cons_cons, Function.iterate_succ_apply, hlinked.1]
      exact ih hrest k (Nat.le_of_succ_le_succ hk)

/-- In a list without repetitions the last node does not occur before. -/
theorem notMem_dropLast_of_getLast? (hnodup : l.Nodup) (ha : l.getLast? = some a) :
    a ∉ l.dropLast := by
  obtain ⟨u, rfl⟩ := List.getLast?_eq_some_iff.mp ha
  rw [List.dropLast_concat]
  rw [List.nodup_append'] at hnodup
  exact fun hmem => hnodup.2.2 hmem (List.mem_singleton_self a)

/-- Nor does the first one occur behind. -/
theorem notMem_tail_of_head? (hnodup : l.Nodup) (hb : l.head? = some b) : b ∉ l.tail := by
  obtain ⟨u, rfl⟩ := List.head?_eq_some_iff.mp hb
  exact (List.nodup_cons.mp hnodup).1

section Connect

variable [DecidableEq α]

/-- What is connected is linked in both directions. -/
theorem linked_connect (m : Links α) (a b : α) : Linked (m.connect a b) a b :=
  ⟨Function.update_self _ _ _, Function.update_self _ _ _⟩

/-- Connecting breaks no link of a path that neither leaves `a` nor enters `b`. -/
theorem Path.connect (hpath : Path m l) (ha : a ∉ l.dropLast) (hb : b ∉ l.tail) :
    Path (m.connect a b) l := by
  refine hpath.congr ?_ ?_
  · intro x hx
    exact Function.update_of_ne (ne_of_mem_of_not_mem hx ha) _ _
  · intro y hy
    exact Function.update_of_ne (ne_of_mem_of_not_mem hy hb) _ _

/-- Connections of different ends commute. -/
theorem connect_comm {a' b' : α} (ha : a ≠ a') (hb : b ≠ b') :
    (m.connect a b).connect a' b' = (m.connect a' b').connect a b := by
  simp only [Links.connect, Links.mk.injEq]
  exact ⟨Function.update_comm ha b b' m.next, Function.update_comm hb a a' m.prev⟩

/-- **Joining.**  Two paths of different nodes become one if the last node of the first is connected
    to the first node of the second. -/
theorem Path.join (h₁ : Path m l₁) (h₂ : Path m l₂) (ha : l₁.getLast? = some a)
    (hb : l₂.head? = some b) (hnodup₁ : l₁.Nodup) (hnodup₂ : l₂.Nodup) (ha₂ : a ∉ l₂.dropLast)
    (hb₁ : b ∉ l₁.tail) : Path (m.connect a b) (l₁ ++ l₂) := by
  refine path_append.mpr ⟨?_, ?_, ?_⟩
  · exact h₁.connect (notMem_dropLast_of_getLast? hnodup₁ ha) hb₁
  · exact h₂.connect ha₂ (notMem_tail_of_head? hnodup₂ hb)
  · intro x hx y hy
    obtain rfl := Option.some.inj (ha.symm.trans hx)
    obtain rfl := Option.some.inj (hb.symm.trans hy)
    exact linked_connect m _ _

end Connect

/-! ## Rings -/

/-- The last node of `u`, or `h` before it. -/
def before (h : α) (u : List α) : α := u.getLast?.getD h

/-- The first node of `v`, or `h` after it. -/
def after (v : List α) (h : α) : α := v.head?.getD h

@[simp] theorem before_nil (h : α) : before h [] = h := rfl
@[simp] theorem before_concat (h : α) (u : List α) (x : α) : before h (u ++ [x]) = x := by
  rw [before, List.getLast?_concat, Option.getD_some]
@[simp] theorem after_nil (h : α) : after [] h = h := rfl
@[simp] theorem after_cons (x : α) (v : List α) (h : α) : after (x :: v) h = x := rfl

/-- The node before a place is the last one of what comes first, or the head of the ring. -/
theorem getLast?_eq_before (h : α) (u : List α) : (h :: u).getLast? = some (before h u) := by
  rw [List.getLast?_cons, before]

/-- The node behind a place is the first one of what follows, or the head again. -/
theorem head?_eq_after (v : List α) (h : α) : (v ++ [h]).head? = some (after v h) := by
  cases v with
  | nil => rfl
  | cons x v => rfl

/-- The node before a place is the head or one of the first part. -/
theorem before_mem (h : α) (u : List α) : before h u ∈ h :: u :=
  List.mem_of_getLast? (getLast?_eq_before h u)

/-- The node behind a place is one of the second part or the head. -/
theorem after_mem (v : List α) (h : α) : after v h ∈ v ++ [h] :=
  List.mem_of_head? (head?_eq_after v h)

/-- So it is a node of the ring. -/
theorem before_mem_append (h : α) (u v : List α) : before h u ∈ h :: (u ++ v) := by
  rw [← List.cons_append]
  exact List.mem_append_left v (before_mem h u)

/-- The same for the node behind. -/
theorem after_mem_append (h : α) (u v : List α) : after v h ∈ h :: (u ++ v) := by
  rcases List.mem_append.mp (after_mem v h) with hv | heq
  · exact List.mem_cons_of_mem h (List.mem_append_right u hv)
  · rw [List.mem_singleton.mp heq]
    exact List.mem_cons_self

/-- A ring is cut at any place: two paths, and the link between the nodes on both sides of the
    cut. -/
theorem ring_append : Ring m h (u ++ v) ↔
    Path m (h :: u) ∧ Path m (v ++ [h]) ∧ Linked m (before h u) (after v h) := by
  have hsplit : h :: ((u ++ v) ++ [h]) = (h :: u) ++ (v ++ [h]) := by
    rw [List.append_assoc, List.cons_append]
  rw [Ring, hsplit, path_append, getLast?_eq_before, head?_eq_after]
  simp

/-- The two neighbours of a place in a ring. -/
theorem Ring.linked (hring : Ring m h (u ++ v)) : Linked m (before h u) (after v h) :=
  (ring_append.mp hring).2.2

/-- A ring of one node. -/
theorem ring_nil : Ring m h [] ↔ Linked m h h := by
  rw [Ring, List.nil_append, path_cons_cons]
  exact and_iff_left (path_singleton h)

/-- With the links exchanged a ring is the ring of the reversed list. -/
theorem Ring.swap (hring : Ring m h l) : Ring m.swap h l.reverse := by
  have hreverse : (h :: (l.reverse ++ [h])).reverse = h :: (l ++ [h]) := by simp
  rw [Ring, path_swap, hreverse]
  exact hring

/-- A walk of `k` links from the head ends at the node number `k`. -/
theorem Ring.iterate_next (hring : Ring m h l) {k : Nat} (hk : k ≤ l.length) :
    m.next^[k] h = before h (l.take k) := by
  have hwalk := Path.iterate_next hring k (by rw [List.length_append]; omega)
  rw [List.take_append_of_le_length hk, getLast?_eq_before] at hwalk
  exact (Option.some.inj hwalk).symm

/-- A walk of `k` links backwards ends at the node number `k` from the end. -/
theorem Ring.iterate_prev (hring : Ring m h l) {k : Nat} (hk : k ≤ l.length) :
    m.prev^[k] h = before h (l.reverse.take k) :=
  hring.swap.iterate_next (by rw [List.length_reverse]; exact hk)

/-! ## Edits -/

section Edits

variable [DecidableEq α]

/-- An edit elsewhere. -/
theorem Ring.connect_of_notMem (hring : Ring m h l) (ha : a ∉ h :: l) (hb : b ∉ h :: l) :
    Ring (m.connect a b) h l := by
  refine Path.connect hring ?_ ?_
  · intro hmem
    rw [← List.cons_append, List.dropLast_concat] at hmem
    exact ha hmem
  · intro hmem
    rw [List.tail_cons, List.mem_append, List.mem_singleton] at hmem
    rcases hmem with hmem | rfl
    · exact hb (List.mem_cons_of_mem h hmem)
    · exact hb List.mem_cons_self

/-- **Closing.**  A path from `h` and a path to `h` become a ring. -/
theorem ring_connect (hu : Path m (h :: u)) (hv : Path m (v ++ [h]))
    (hnodup : (h :: (u ++ v)).Nodup) :
    Ring (m.connect (before h u) (after v h)) h (u ++ v) := by
  obtain ⟨hnotin, hnodup⟩ := List.nodup_cons.mp hnodup
  obtain ⟨hnodup_u, hnodup_v, hdisjoint⟩ := List.nodup_append'.mp hnodup
  rw [List.mem_append, not_or] at hnotin
  have hsplit : h :: ((u ++ v) ++ [h]) = (h :: u) ++ (v ++ [h]) := by
    rw [List.append_assoc, List.cons_append]
  rw [Ring, hsplit]
  refine hu.join hv (getLast?_eq_before h u) (head?_eq_after v h) ?_ ?_ ?_ ?_
  · exact List.nodup_cons.mpr ⟨hnotin.1, hnodup_u⟩
  · exact List.nodup_append'.mpr ⟨hnodup_v, List.nodup_singleton h,
      List.disjoint_singleton.mpr hnotin.2⟩
  · rw [List.dropLast_concat]
    intro hmem
    rcases List.mem_cons.mp (before_mem h u) with heq | hu
    · exact hnotin.2 (heq ▸ hmem)
    · exact hdisjoint hu hmem
  · rw [List.tail_cons]
    intro hmem
    rcases List.mem_append.mp (after_mem v h) with hv | heq
    · exact hdisjoint hmem hv
    · exact hnotin.1 (List.mem_singleton.mp heq ▸ hmem)

/-- **Taking out.**  Connecting the neighbours of a segment leaves the ring of the others, and the
    segment a path. -/
theorem Ring.unlink (hring : Ring m h (u ++ c ++ v)) (hnodup : (h :: (u ++ c ++ v)).Nodup) :
    Ring (m.connect (before h u) (after v h)) h (u ++ v) ∧
      Path (m.connect (before h u) (after v h)) c := by
  have hsub : (h :: (u ++ v)).Nodup := by
    refine hnodup.sublist (List.Sublist.cons_cons h ?_)
    exact (List.sublist_append_left u c).append_right v
  obtain ⟨hpath, hpath_v, -⟩ := ring_append.mp hring
  rw [← List.cons_append] at hpath
  obtain ⟨hpath_u, hpath_c, -⟩ := path_append.mp hpath
  refine ⟨ring_connect hpath_u hpath_v hsub, hpath_c.connect ?_ ?_⟩
  · intro hmem
    have hc := List.dropLast_subset c hmem
    rw [← List.cons_append, ← List.cons_append, List.append_assoc] at hnodup
    exact (List.nodup_append'.mp hnodup).2.2 (before_mem h u) (List.mem_append_left v hc)
  · intro hmem
    have hc := List.mem_of_mem_tail hmem
    obtain ⟨hnotin, hnodup⟩ := List.nodup_cons.mp hnodup
    rcases List.mem_append.mp (after_mem v h) with hv | heq
    · exact (List.nodup_append'.mp hnodup).2.2 (List.mem_append_right u hc) hv
    · rw [List.mem_singleton.mp heq] at hc
      exact hnotin (List.mem_append_left v (List.mem_append_right u hc))

/-- **Putting in.**  A path comes between two neighbours of a ring. -/
theorem Ring.splice (hring : Ring m h (u ++ v)) (hc : Path m c) (hx : c.head? = some x)
    (hy : c.getLast? = some y) (hnodup : (h :: (u ++ c ++ v)).Nodup) :
    Ring ((m.connect (before h u) x).connect y (after v h)) h (u ++ c ++ v) := by
  obtain ⟨hpath_u, hpath_v, -⟩ := ring_append.mp hring
  have hlast : before h (u ++ c) = y := by
    obtain ⟨c', rfl⟩ := List.getLast?_eq_some_iff.mp hy
    rw [← List.append_assoc, before_concat]
  obtain ⟨hnotin, hnodup'⟩ := List.nodup_cons.mp hnodup
  obtain ⟨hnodup_uc, hnodup_v, hdisjoint⟩ := List.nodup_append'.mp hnodup'
  obtain ⟨hnodup_u, hnodup_c, hdisjoint_uc⟩ := List.nodup_append'.mp hnodup_uc
  simp only [List.mem_append, not_or] at hnotin
  have hxc : x ∈ c := List.mem_of_head? hx
  rw [← hlast]
  refine ring_connect ?_ (hpath_v.connect ?_ ?_) hnodup
  · -- the path from `h` goes on through `c`
    rw [← List.cons_append]
    refine hpath_u.join hc (getLast?_eq_before h u) hx ?_ hnodup_c ?_ ?_
    · exact List.nodup_cons.mpr ⟨hnotin.1.1, hnodup_u⟩
    · intro hmem
      have hmem := List.dropLast_subset c hmem
      rcases List.mem_cons.mp (before_mem h u) with heq | hu
      · exact hnotin.1.2 (heq ▸ hmem)
      · exact hdisjoint_uc hu hmem
    · rw [List.tail_cons]
      exact fun hu => hdisjoint_uc hu hxc
  · rw [List.dropLast_concat]
    intro hv
    rcases List.mem_cons.mp (before_mem h u) with heq | hu
    · exact hnotin.2 (heq ▸ hv)
    · exact hdisjoint (List.mem_append_left c hu) hv
  · intro hmem
    rcases List.mem_append.mp (List.mem_of_mem_tail hmem) with hv | heq
    · exact hdisjoint (List.mem_append_right u hxc) hv
    · rw [List.mem_singleton.mp heq] at hxc
      exact hnotin.1.2 hxc

end Edits

end Rings
